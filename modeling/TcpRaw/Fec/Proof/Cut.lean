import TcpRaw.Fec.ShortRead
import TcpRaw.Fec.Proof.Drain

/-!
# Decoding packets that were cut

What was read of the packets of a block agrees with the block in the columns that they all have, and
the codec works column by column, so these columns of the lost packets come back (`lost_columns`). A
payload that lies within them is restored as it was sent, whatever the columns behind it hold
(`push_cut`); one that goes beyond all of them is a panic, since its size bytes are right
(`starved_shard`).

`CutGather` is what the decoder gathered for a packet of the stream from a queue of such packets.
`cut_step` and `starve_decode` are the two results for a whole call of `Fec.decode`.
-/

namespace Faketcp

open GoRt Erasure Keyed

section
variable {codec : Codec UInt8} {d p : Nat} {blk : List Bytes}

/-! ## Cut packets -/

/-- `q` is the beginning of a packet of the block `blk`, its size included. -/
structure CutFrom (codec : Codec UInt8) (d p : Nat) (blk : List Bytes) (q : FecPacket) : Prop where
  flag : q.flag = flagOf d (q.seqid.toNat % (d + p))
  shard : ∃ s, blockShard codec d blk (q.seqid.toNat % (d + p)) = some s ∧ q.data.data <+: s
  size : 2 ≤ q.data.len

theorem FromBlock.cutFrom (hlaw : codec.Lawful d p) (h0 : 0 < d) {q : FecPacket}
    (h : FromBlock codec d p blk q) : CutFrom codec d p blk q := by
  refine ⟨h.flag, ⟨_, h.shard, List.prefix_refl _⟩, ?_⟩
  rw [← Slice.length_data]
  exact (blockShard_length hlaw h0 h.shard).1

theorem length_eq_shardLen (hlaw : codec.Lawful d p) (h0 : 0 < d) {j : Nat} {s : Bytes}
    (h : blockShard codec d blk j = some s) : s.length = shardLen d blk j := by
  have hlen := blockShard_length hlaw h0 h
  unfold blockShard at h
  unfold shardLen
  split at h
  · rename_i hj
    obtain ⟨b, hb, rfl⟩ := Option.map_eq_some_iff.1 h
    rw [if_pos hj, hb, length_sized]
    rfl
  · rename_i hj
    rw [if_neg hj]
    exact hlen.2.2 (by omega)

theorem CutFrom.columns (hlaw : codec.Lawful d p) (h0 : 0 < d) {q : FecPacket}
    (h : CutFrom codec d p blk q) {c : Nat}
    (hq : q.data.len = shardLen d blk (q.seqid.toNat % (d + p)) ∨ c ≤ q.data.len) {m : Nat}
    (hm : c ≤ m) (hn : c ≤ blockLen blk) :
    ∃ s, blockShard codec d blk (q.seqid.toNat % (d + p)) = some s ∧
      (padTo m q.data.data).take c = (padTo (blockLen blk) s).take c := by
  obtain ⟨s, hs, hpre⟩ := h.shard
  refine ⟨s, hs, ?_⟩
  rw [take_padTo_le hm, take_padTo_le hn]
  congr 1
  rcases hq with hwhole | hlong
  · rw [← length_eq_shardLen hlaw h0 hs, ← Slice.length_data] at hwhole
    rw [hpre.eq_of_length hwhole]
  · rw [← Slice.length_data] at hlong
    rw [List.prefix_iff_eq_take.1 hpre, List.take_take, Nat.min_eq_left hlong]

/-! ## Restoring -/

section
variable {dec : FecDecoder} {seqid : UInt32} {i : Nat} {rx ts : List FecPacket} {a : Assembly}

theorem cutFrom_of_padded (hdec : DecAt codec d p dec) (hG : Gathered dec seqid i rx ts a) {k : Nat}
    {s : Bytes} (h : a.padded[k]? = some (some s)) :
    ∃ q ∈ ts, q.seqid.toNat % (d + p) = k ∧ s = padTo a.maxlen q.data.data := by
  rw [getElem?_padded] at h
  obtain ⟨o, ho, hs⟩ := Option.map_eq_some_iff.1 h
  obtain ⟨t, rfl, rfl⟩ := Option.map_eq_some_iff.1 hs
  obtain ⟨q, hq, hk, rfl⟩ := hG.asm.of_shard k t ho
  rw [hdec.toNat_mod] at hk
  exact ⟨q, hq, hk, rfl⟩

theorem forall₂_missing {R : Bytes → Bytes → Prop} {flags : List Bool} {out : List (Option Bytes)}
    {blk : List Bytes} : ∀ {ks : List Nat}, (∀ k ∈ ks, flags[k]?.getD false = false →
      ∃ y b, out[k]? = some (some y) ∧ blk[k]? = some b ∧ R y b) →
    List.Forall₂ R (missing flags out ks)
      (ks.filterMap fun k => if flags[k]?.getD false then none else blk[k]?)
  | [], _ => .nil
  | k :: ks, h => by
    have ih := forall₂_missing fun k' hk' => h k' (List.mem_cons_of_mem _ hk')
    unfold missing at ih ⊢
    rw [List.filterMap_cons, List.filterMap_cons]
    cases hf : flags[k]?.getD false with
    | true => exact ih
    | false =>
      obtain ⟨y, b, hy, hb, hR⟩ := h k List.mem_cons_self hf
      rw [hy, hb]
      exact .cons hR ih

section
variable (hlaw : codec.Lawful d p) (h0 : 0 < d) (hdec : DecAt codec d p dec)
  (hG : Gathered dec seqid i rx ts a) (hblk : blk.length ≤ d)
  (hts : ∀ q ∈ ts, CutFrom codec d p blk q) (hd : d ≤ present a.padded)
include hlaw h0 hdec hG hblk hts hd

theorem lost_full {k : Nat} (hk : k < d) (hf : a.shardsflag[k]?.getD false = false) :
    ∃ b, blk[k]? = some b ∧ blk.length = d ∧ a.maxlen ≤ blockLen blk ∧
      ∃ q ∈ ts, d ≤ q.seqid.toNat % (d + p) := by
  obtain ⟨j, s, hj, hs⟩ := exists_parity hd hk (padded_none_of_flag hdec hG hk hf)
  obtain ⟨q, hq, rfl, -⟩ := cutFrom_of_padded hdec hG hs
  obtain ⟨s', hs', -⟩ := (hts q hq).shard
  have hfull := length_of_blockShard hblk hs' (by omega)
  refine ⟨_, List.getElem?_eq_getElem (by omega), hfull, ?_, q, hq, hj⟩
  rcases hG.asm.maxlen with h | ⟨q', hq', h⟩
  · omega
  · obtain ⟨s'', hs'', hpre⟩ := (hts q' hq').shard
    have h1 := hpre.length_le
    have h2 := (blockShard_length hlaw h0 hs'').2.1
    rw [Slice.length_data] at h1
    omega

/-- **Columns that all packets have come back**: in the first `c` of them a restored shard is the
one that was sent. -/
theorem lost_columns (hcol : codec.Columnwise) {k : Nat} (hk : k < d)
    (hf : a.shardsflag[k]?.getD false = false) {c : Nat} (hc : 0 < c) (hm : c ≤ a.maxlen)
    (hcolumns : ∀ q ∈ ts, q.data.len = shardLen d blk (q.seqid.toNat % (d + p)) ∨ c ≤ q.data.len) :
    ∃ out y b, codec.reconstructData a.padded = some out ∧ out[k]? = some (some y) ∧
      blk[k]? = some b ∧ y.length = a.maxlen ∧
      y.take c = (padTo (blockLen blk) (sized b)).take c := by
  obtain ⟨b, hb, hfull, hup, -⟩ := lost_full hlaw h0 hdec hG hblk hts hd hk hf
  have hn : c ≤ blockLen blk := Nat.le_trans hm hup
  have hsize : ∀ s, some s ∈ a.padded → s.length = a.maxlen := by
    intro s hs
    obtain ⟨k, hk⟩ := List.mem_iff_getElem?.1 hs
    obtain ⟨q, hq, -, rfl⟩ := cutFrom_of_padded hdec hG hk
    exact length_padTo (by rw [Slice.length_data]; exact hG.asm.le_maxlen q hq)
  have hlen : a.padded.length = d + p := by
    rw [Assembly.padded, List.length_map, hG.asm.shards_length, hdec.shardSize]
  obtain ⟨parity, hcw⟩ := hlaw.encode_ok ((length_paddedData blk).trans hfull)
    (Nat.lt_of_lt_of_le hc hn) fun s hs => size_paddedData hs
  obtain ⟨out, hout, hget⟩ := hlaw.reconstruct_columns hcol hcw hlen hd hsize hc hn hm
    fun j s hj => by
      obtain ⟨q, hq, rfl, rfl⟩ := cutFrom_of_padded hdec hG hj
      obtain ⟨s', hs', htake⟩ := (hts q hq).columns hlaw h0 (hcolumns q hq) hm hn
      exact ⟨_, codeword_shard hlaw h0 hfull hcw hs', htake⟩
  obtain ⟨y, hy, hylen, hytake⟩ := hget k (padTo (blockLen blk) (sized b)) hk (by
    rw [paddedData, List.getElem?_map, hb]
    rfl)
  exact ⟨out, y, b, hout, hy, hb, hylen, hytake⟩

/-- Packets that reach a lost payload are as long as it, and the longest of them decides whether
there is more than the size bytes. -/
theorem lost_reached {k : Nat} (hk : k < d) (hf : a.shardsflag[k]?.getD false = false) {b : Bytes}
    (hb : blk[k]? = some b) (hreach : ∀ q ∈ ts, Reaches d p blk b q) :
    b.length + 2 ≤ a.maxlen ∧ (a.maxlen ≤ 2 ↔ blockLen blk ≤ 2) := by
  obtain ⟨-, -, -, hup, q, hq, hparity⟩ := lost_full hlaw h0 hdec hG hblk hts hd hk hf
  have hle := length_le_blockLen (List.mem_of_getElem? hb)
  have hmax := hG.asm.le_maxlen q hq
  rcases hreach q hq with hwhole | ⟨htwo, hlong⟩
  · rw [shardLen, if_neg (by omega)] at hwhole
    omega
  · omega

/-- **What is restored from packets that reach it**: shards that begin with the sizes and the lost
payloads. -/
theorem recovered_cut (hcol : codec.Columnwise)
    (hreach : ∀ k < d, a.shardsflag[k]?.getD false = false →
      ∀ q ∈ ts, Reaches d p blk (blk[k]?.getD []) q) :
    List.Forall₂ (fun r b => r.length = a.maxlen ∧ sized b <+: r) (dec.recovered a)
      (lost d a.shardsflag blk) := by
  unfold FecDecoder.recovered
  rw [hdec.dataShards, hdec.codec]
  by_cases hall : ∀ k < d, a.shardsflag[k]?.getD false = true
  · rw [lost_eq_nil hall]
    split
    · rw [missing_eq_nil hall]
      exact .nil
    · exact .nil
  push Not at hall
  obtain ⟨k₀, hk₀, hf₀⟩ := hall
  -- each lost payload comes back in the columns up to its end
  have hback : ∀ k < d, a.shardsflag[k]?.getD false = false → ∃ out y b,
      codec.reconstructData a.padded = some out ∧ out[k]? = some (some y) ∧ blk[k]? = some b ∧
        y.length = a.maxlen ∧ sized b <+: y := by
    intro k hk hf
    obtain ⟨b, hb, -⟩ := lost_full hlaw h0 hdec hG hblk hts hd hk hf
    have hr := hreach k hk hf
    rw [hb, Option.getD_some] at hr
    obtain ⟨hm, -⟩ := lost_reached hlaw h0 hdec hG hblk hts hd hk hf hb hr
    obtain ⟨out, y, b', hout, hy, hb', hylen, hytake⟩ :=
      lost_columns hlaw h0 hdec hG hblk hts hd hcol
      hk hf (by omega) hm fun q hq => (hr q hq).imp_right And.right
    rw [hb, Option.some.injEq] at hb'
    subst hb'
    rw [padTo, List.take_left' (length_sized b)] at hytake
    refine ⟨out, y, b, hout, hy, hb, hylen, ?_⟩
    rw [← hytake]
    exact List.take_prefix _ _
  obtain ⟨out, -, -, hout, -⟩ := hback k₀ hk₀ (by simpa using hf₀)
  rw [hout]
  refine forall₂_missing fun k hk hf => ?_
  obtain ⟨out', y, b, hout', hy, hb, hR⟩ := hback k (List.mem_range.1 hk) hf
  rw [hout, Option.some.injEq] at hout'
  subst hout'
  exact ⟨y, b, hy, hb, hR⟩

/-- **What is restored from packets of which none goes to its end**: a shard that is shorter than
its size says. -/
theorem starved_shard (hcol : codec.Columnwise) (hdata : a.numDataShard ≠ d) (hnum : d ≤ a.numshard)
    {k : Nat} (hk : k < d) (hf : a.shardsflag[k]?.getD false = false) {b : Bytes}
    (hb : blk[k]? = some b) (hpay : b.length ≤ maxPayload) (htwo : 2 < a.maxlen)
    (hmax : a.maxlen < b.length + 2) :
    ∃ r ∈ (dec.outcome a rx).1, 2 < r.length ∧ ∃ sz, leUint16 r = .ok sz ∧ r.length < sz.toNat := by
  -- every packet has the size bytes
  obtain ⟨out, y, b', hout, hy, hb', hylen, hytake⟩ := lost_columns hlaw h0 hdec hG hblk hts hd hcol
    hk hf Nat.two_pos (by omega) fun q hq => .inr (hts q hq).size
  rw [hb, Option.some.injEq] at hb'
  subst hb'
  have hsize : leUint16 y = .ok (UInt16.ofNat (b.length + 2)) := by
    rw [padTo, sized, List.append_assoc, List.take_left' (length_leBytes16 _)] at hytake
    rw [← List.take_append_drop 2 y, hytake, leUint16_append]
  have hsz : (UInt16.ofNat (b.length + 2)).toNat = b.length + 2 := by
    unfold maxPayload fecHeaderSizePlus2 fecHeaderSize mtuLimit at hpay
    rw [UInt16.toNat_ofNat']
    omega
  refine ⟨y, ?_, by omega, _, hsize, by omega⟩
  rw [FecDecoder.outcome, hdec.dataShards, if_neg hdata, if_pos hnum, FecDecoder.recovered,
    hdec.codec, hout, hdec.dataShards]
  refine List.mem_filterMap.2 ⟨k, List.mem_range.2 hk, ?_⟩
  rw [hf, hy]
  rfl

end

/-- **What a call puts on `dataCh`**: the payloads that are restored from the whole packets. -/
theorem push_cut (hlaw : codec.Lawful d p) (hcol : codec.Columnwise) (h0 : 0 < d)
    (hdec : DecAt codec d p dec) (hG : Gathered dec seqid i rx ts a) (hblk : blk.length ≤ d)
    (hpay : ∀ b ∈ blk, b.length ≤ maxPayload) (hts : ∀ q ∈ ts, CutFrom codec d p blk q)
    (hpresent : ts.length ≤ present a.padded)
    (hreach : d ≤ ts.length → ∀ k < d, a.shardsflag[k]?.getD false = false →
      ∀ q ∈ ts, Reaches d p blk (blk[k]?.getD []) q)
    (fec : Fec) (hcap : fec.dataCh.length + d ≤ fec.dataChCap) :
    Fec.pushRecovered (dec.outcome a rx).1 fec =
      .ok { fec with
            dataCh := fec.dataCh ++ if blockLen blk ≤ 2 then [] else restored d a blk } := by
  have hnone : restored d a blk = [] → Fec.pushRecovered [] fec =
      .ok { fec with
            dataCh := fec.dataCh ++ if blockLen blk ≤ 2 then [] else restored d a blk } := by
    intro hr
    rw [hr, ite_self, List.append_nil]
    rfl
  have hnum := hG.asm.numshard
  unfold FecDecoder.outcome
  rw [hdec.dataShards]
  by_cases h1 : a.numDataShard = d
  · rw [if_pos h1]
    exact hnone (if_pos h1)
  rw [if_neg h1]
  by_cases h2 : d ≤ a.numshard
  · have hd : d ≤ present a.padded := by omega
    have hreach := hreach (hnum ▸ h2)
    have hr : restored d a blk = lost d a.shardsflag blk := by
      rw [restored, if_neg h1, if_pos ⟨h2, hd⟩]
    have hle := length_lost_le d a.shardsflag blk
    rw [if_pos h2, hr, pushRecovered_sized
      (recovered_cut hlaw h0 hdec hG hblk hts hd hcol hreach) fec
      (fun b hb => by
        obtain ⟨k, -, -, hk⟩ := mem_lost.1 hb
        exact hpay b (List.mem_of_getElem? hk)) (by omega)]
    -- a shard of size bytes only is skipped, which the length of the longest one decides
    by_cases hall : ∀ k < d, a.shardsflag[k]?.getD false = true
    · rw [lost_eq_nil hall, ite_self, ite_self]
    · push Not at hall
      obtain ⟨k, hk, hf⟩ := hall
      have hf : a.shardsflag[k]?.getD false = false := by simpa using hf
      obtain ⟨b, hb, -⟩ := lost_full hlaw h0 hdec hG hblk hts hd hk hf
      have hrk := hreach k hk hf
      rw [hb, Option.getD_some] at hrk
      obtain ⟨-, hiff⟩ := lost_reached hlaw h0 hdec hG hblk hts hd hk hf hb hrk
      simp only [hiff]
  · rw [if_neg h2]
    exact hnone (by rw [restored, if_neg h1, if_neg fun h => h2 h.1])

end

theorem pushRecovered_error {rs : List Bytes} (h : ∃ r ∈ rs, 2 < r.length ∧
    ∃ sz, leUint16 r = .ok sz ∧ r.length < sz.toNat) (fec : Fec) :
    ∃ e, Fec.pushRecovered rs fec = .error e := by
  induction rs generalizing fec with
  | nil =>
    obtain ⟨r, hr, -⟩ := h
    cases hr
  | cons r rs ih =>
    obtain ⟨r', hr', hlen, sz, hsz, hlt⟩ := h
    have hrest : r' ≠ r → ∀ fec', ∃ e, Fec.pushRecovered rs fec' = .error e := fun hne =>
      ih ⟨r', (List.mem_cons.1 hr').resolve_left hne, hlen, sz, hsz, hlt⟩
    unfold Fec.pushRecovered
    by_cases hr : r.length ≤ 2
    · rw [if_pos hr]
      exact hrest (fun he => by rw [he] at hlen; omega) _
    obtain ⟨sz', hsz'⟩ := leUint16_returns.2 (show 2 ≤ r.length by omega)
    rw [if_neg hr, hsz', ok_bind]
    by_cases hbad : sz' < 2 ∨ sz'.toNat > r.length
    · rw [if_pos hbad]
      exact ⟨_, rfl⟩
    · have hne : r' ≠ r := by
        intro he
        rw [he, hsz', Except.ok.injEq] at hsz
        exact hbad (.inr (hsz ▸ he ▸ hlt))
      have htwo : ¬ sz'.toNat < 2 := fun h => hbad (.inl (UInt16.lt_iff_toNat_lt.2 h))
      rw [if_neg hbad, sliceRange_ok (by omega) (by omega), ok_bind]
      split
      · exact hrest hne _
      · exact ⟨_, rfl⟩

/-! ## Packets of a stream -/

/-- What the results below assume of the codec, the blocks and the payloads. -/
structure Coding (codec : Codec UInt8) (d p : Nat) (ps : List Bytes) : Prop where
  lawful : codec.Lawful d p
  columnwise : codec.Columnwise
  pos : 0 < d
  size : d + p ≤ 256
  pay : ∀ b ∈ ps, b.length ≤ maxPayload
  count : streamLength d p ps.length < 2 ^ 31

/-- `q` is the beginning of a packet of the stream of `ps`. -/
structure CutOf (codec : Codec UInt8) (d p : Nat) (ps : List Bytes) (q : FecPacket) : Prop where
  lt : q.seqid.toNat < 2 ^ 31
  cutFrom : CutFrom codec d p (blockOf d (q.seqid.toNat / (d + p)) ps) q

/-- A queue of such packets, in order. -/
structure CutQueue (codec : Codec UInt8) (d p : Nat) (ps : List Bytes) (rx : List FecPacket) :
    Prop where
  ordered : Ordered FecPacket.seq rx
  cutOf : ∀ q ∈ rx, CutOf codec d p ps q

variable {ps : List Bytes}

theorem CutQueue.sublist {rx rx' : List FecPacket} (h : CutQueue codec d p ps rx)
    (hs : rx'.Sublist rx) : CutQueue codec d p ps rx' :=
  ⟨h.ordered.sublist hs, fun q hq => h.cutOf q (hs.mem hq)⟩

theorem Coding.blockLen_le (H : Coding codec d p ps) (B : Nat) :
    blockLen (blockOf d B ps) ≤ mtuLimit :=
  Faketcp.blockLen_le fun b hb => by
    have := H.pay b (mem_blockOf hb)
    unfold maxPayload fecHeaderSizePlus2 fecHeaderSize mtuLimit at *
    omega

theorem length_packet (seqid : UInt32) (flag : UInt16) (shard : Bytes) :
    (packet seqid flag shard).length = fecHeaderSize + shard.length := by
  rw [packet, List.length_append]
  rfl

/-- **What a short buffer leaves of a packet of the stream**: its sequence id, its flag and the
beginning of its shard. -/
theorem decodeFecPacket_cut (H : Coding codec d p ps) {k : Nat} (hk : k < 2 ^ 31) {x : Bytes}
    (hx : streamPacket codec d p ps k = some x) {m : Nat} {a : Arrival}
    (ha : a.data = x.take (m + fecHeaderSizePlus2)) :
    ∃ pkt, decodeFecPacket a.data a.buf = .ok pkt ∧ pkt.seqid.toNat = k ∧
      pkt.data.cap = mtuLimit ∧ CutOf codec d p ps pkt ∧
      packetPayload pkt a.data = .ok ((streamPayload d p ps k).map (List.take m)) ∧
      (x.length ≤ m + fecHeaderSizePlus2 → OfStream codec d p ps pkt) := by
  obtain ⟨shard, hnat, rfl, hshard⟩ := streamPacket_lt H.pos H.size hk hx
  generalize UInt32.ofNat k = seqid at *
  subst hnat
  have hbl := blockShard_length H.lawful H.pos hshard
  have hmtu := H.blockLen_le (seqid.toNat / (d + p))
  rw [packet_take] at ha
  obtain ⟨pkt, hpkt, rfl, hflag, hdata, hcap⟩ := @decodeFecPacket_ok seqid
    (flagOf d (seqid.toNat % (d + p))) (shard.take (m + 2)) a.buf (by rw [List.length_take]; omega)
  refine ⟨pkt, by rw [ha]; exact hpkt, rfl, hcap, ⟨hk, hflag, ⟨shard, hshard, ?_⟩, ?_⟩, ?_, ?_⟩
  · rw [hdata]
    exact List.take_prefix _ _
  · rw [← Slice.length_data, hdata, List.length_take]
    omega
  · rw [ha]
    exact packetPayload_cut hflag hshard pkt.seqid m
  · intro hwhole
    rw [length_packet] at hwhole
    rw [List.take_of_length_le (show shard.length ≤ m + 2 by
      unfold fecHeaderSizePlus2 at hwhole; omega)] at hdata
    exact ⟨hk, hflag, by rw [hdata, hshard]⟩

/-! ## What the decoder gathers -/

section
variable {dec : FecDecoder} {pkt : FecPacket} {i : Nat} {ts : List FecPacket} {asm : Assembly}

theorem CutQueue.insertAt {rx : List FecPacket} (h : CutQueue codec d p ps rx)
    (hpkt : CutOf codec d p ps pkt) (hsc : ScanAt rx pkt.seqid i) :
    CutQueue codec d p ps (insertAt rx i pkt) := by
  refine ⟨compared_seq.ordered_insertAt h.ordered (fun q hq => (h.cutOf q hq).lt) hpkt.lt hsc,
    fun q hq => ?_⟩
  rcases mem_insertAt.1 hq with rfl | hq
  · exact hpkt
  · exact h.cutOf q hq

theorem mem_filter_insertAt {n : Nat} {rx : List FecPacket} {q : FecPacket} :
    q ∈ (insertAt rx i pkt).filter (fun q => q.seqid.toNat / n = pkt.seqid.toNat / n) ↔
      q ∈ blockmates n rx pkt := by
  rw [List.mem_filter, mem_insertAt, blockmates, List.mem_cons, List.mem_filter, or_and_right]
  refine or_congr_left (and_iff_left_of_imp fun h => ?_)
  rw [h]
  exact decide_eq_true rfl

theorem length_filter_insertAt {n : Nat} {rx : List FecPacket} :
    ((insertAt rx i pkt).filter (fun q => q.seqid.toNat / n = pkt.seqid.toNat / n)).length =
      (blockmates n rx pkt).length := by
  have hrx : (rx.filter (fun q => q.seqid.toNat / n = pkt.seqid.toNat / n)).length =
      ((rx.take i).filter (fun q => q.seqid.toNat / n = pkt.seqid.toNat / n)).length +
        ((rx.drop i).filter (fun q => q.seqid.toNat / n = pkt.seqid.toNat / n)).length := by
    rw [← List.length_append, ← List.filter_append, List.take_append_drop]
  rw [insertAt, List.filter_append, List.filter_cons_of_pos (by simp), List.length_append,
    List.length_cons, blockmates, List.length_cons, hrx]
  omega

/-- The packets `ts` of the block of `pkt`, gathered after `pkt` was inserted at `i`. -/
structure CutGather (codec : Codec UInt8) (d p : Nat) (ps : List Bytes) (dec : FecDecoder)
    (pkt : FecPacket) (i : Nat) (ts : List FecPacket) (asm : Assembly) : Prop where
  decAt : DecAt codec d p dec
  scan : ScanAt dec.rx pkt.seqid i
  gathered : Gathered dec pkt.seqid i (insertAt dec.rx i pkt) ts asm
  queue : CutQueue codec d p ps (insertAt dec.rx i pkt)
  new : ∀ q ∈ dec.rx, q.seqid ≠ pkt.seqid
  block : ∀ q ∈ ts, q.seqid.toNat / (d + p) = pkt.seqid.toNat / (d + p)

theorem CutQueue.gather (H : Coding codec d p ps) (h : CutQueue codec d p ps dec.rx)
    (hdec : DecAt codec d p dec) (hpkt : CutOf codec d p ps pkt) (hsc : ScanAt dec.rx pkt.seqid i)
    (hG : Gathered dec pkt.seqid i (Faketcp.insertAt dec.rx i pkt) ts asm) :
    CutGather codec d p ps dec pkt i ts asm := by
  have hins := h.insertAt hpkt hsc
  refine ⟨hdec, hsc, hG, hins, fun q hq he => ?_, gathered_div hdec H.pos H.size
    (fun q hq => (hins.cutOf q hq).lt) hpkt.lt hG⟩
  exact compared_seq.scan_new h.ordered (fun q hq => (h.cutOf q hq).lt) hpkt.lt hsc q hq
    (congrArg UInt32.toNat he)

theorem CutGather.ordered (h : CutGather codec d p ps dec pkt i ts asm) :
    Ordered FecPacket.seq ts :=
  h.queue.ordered.sublist h.gathered.sublist

theorem CutGather.cutFrom (h : CutGather codec d p ps dec pkt i ts asm) :
    ∀ q ∈ ts, CutFrom codec d p (blockOf d (pkt.seqid.toNat / (d + p)) ps) q := fun q hq =>
  h.block q hq ▸ (h.queue.cutOf q (h.gathered.mem hq).1).cutFrom

theorem CutGather.present (h : CutGather codec d p ps dec pkt i ts asm) :
    ts.length ≤ present asm.padded :=
  length_le_present h.decAt h.ordered h.block h.gathered

theorem CutGather.length_le (h : CutGather codec d p ps dec pkt i ts asm) :
    ts.length ≤ (blockmates (d + p) dec.rx pkt).length := by
  have hself : ts.filter (fun q => q.seqid.toNat / (d + p) = pkt.seqid.toNat / (d + p)) = ts :=
    List.filter_eq_self.2 fun q hq => decide_eq_true (h.block q hq)
  rw [← length_filter_insertAt (i := i), ← hself]
  exact (h.gathered.sublist.filter _).length_le

/-- **The packets gathered are those of the block that the decoder has**, if these are `d` or
more. -/
theorem CutGather.eq_filter (H : Coding codec d p ps) (h : CutGather codec d p ps dec pkt i ts asm)
    (hfull : d ≤ (blockmates (d + p) dec.rx pkt).length) :
    ts = (insertAt dec.rx i pkt).filter
      (fun q => q.seqid.toNat / (d + p) = pkt.seqid.toNat / (d + p)) := by
  have hlt : ∀ q ∈ insertAt dec.rx i pkt, q.seq < 2 ^ 31 := fun q hq => (h.queue.cutOf q hq).lt
  -- a block with `d` packets in the queue is full, so it ends within the stream
  have hblk : (blockOf d (pkt.seq / (d + p)) ps).length = d := by
    refine Nat.le_antisymm (length_blockOf_le _ _ _) (Nat.not_lt.1 fun hshort => ?_)
    have hfew := countP_lt_of_short H.pos hshort h.queue.ordered fun q hq => by
      obtain ⟨s, hs, -⟩ := (h.queue.cutOf q hq).cutFrom.shard
      exact ⟨s, hs⟩
    rw [List.countP_eq_length_filter] at hfew
    rw [← length_filter_insertAt (i := i)] at hfull
    exact Nat.not_lt.2 hfull hfew
  have ho : Ordered FecPacket.seq dec.rx := by
    refine h.queue.ordered.sublist ?_
    nth_rewrite 1 [← List.take_append_drop i dec.rx]
    exact (List.Sublist.refl _).append (List.sublist_cons_self _ _)
  exact gathered_filter h.decAt H.size ho (fun q hq => hlt q (mem_insertAt.2 (.inr hq)))
    (hlt pkt (mem_insertAt.2 (.inl rfl))) (block_end_le H.pos H.count hblk) h.scan h.gathered

theorem CutGather.mem_iff (H : Coding codec d p ps) (h : CutGather codec d p ps dec pkt i ts asm)
    (hfull : d ≤ (blockmates (d + p) dec.rx pkt).length) {q : FecPacket} :
    q ∈ ts ↔ q ∈ blockmates (d + p) dec.rx pkt := by
  rw [h.eq_filter H hfull, mem_filter_insertAt]

theorem CutGather.flag_iff (H : Coding codec d p ps) (h : CutGather codec d p ps dec pkt i ts asm)
    (hfull : d ≤ (blockmates (d + p) dec.rx pkt).length) {k : Nat} (hk : k < d) :
    asm.shardsflag[k]?.getD false = false ↔
      ∀ q ∈ blockmates (d + p) dec.rx pkt, q.seqid.toNat % (d + p) ≠ k := by
  rw [← Bool.not_eq_true, h.gathered.flag_iff h.decAt (by omega), not_exists]
  refine forall_congr' fun q => ?_
  rw [h.mem_iff H hfull, not_and]
  rfl

theorem CutGather.reaches (H : Coding codec d p ps) (h : CutGather codec d p ps dec pkt i ts asm)
    (hcov : dec.Covers d p ps pkt) (hfull : d ≤ ts.length) {k : Nat} (hk : k < d)
    (hf : asm.shardsflag[k]?.getD false = false) :
    ∀ q ∈ ts, Reaches d p (blockOf d (pkt.seqid.toNat / (d + p)) ps)
      ((blockOf d (pkt.seqid.toNat / (d + p)) ps)[k]?.getD []) q := by
  have hmates := Nat.le_trans hfull h.length_le
  intro q hq
  exact hcov h.new hmates k hk ((h.flag_iff H hmates hk).1 hf) q ((h.mem_iff H hmates).1 hq)

end

/-! ## One packet -/

section
variable {fec : Fec} {k m : Nat} {x : Bytes} {a : Arrival}

/-- **One packet of the stream, cut to a buffer of `m` bytes**, where it covers what it makes the
decoder restore: its payload is cut, and what is restored is as it was sent. -/
theorem cut_step (H : Coding codec d p ps) (hf : FecAt codec d p fec)
    (hq : CutQueue codec d p ps fec.decoder.rx) (hch : fec.dataCh = []) (hk : k < 2 ^ 31)
    (hx : streamPacket codec d p ps k = some x) (ha : a.data = x.take (m + fecHeaderSizePlus2))
    (hcov : fec.Covers d p ps a) :
    ∃ pkt fec', pkt.seqid.toNat = k ∧ CutOf codec d p ps pkt ∧
      (x.length ≤ m + fecHeaderSizePlus2 → OfStream codec d p ps pkt) ∧
      fec.decode a = .ok ((streamPayload d p ps k).map (List.take m), fec') ∧ FecAt codec d p fec' ∧
      ((∃ q ∈ fec.decoder.rx, q.seqid = pkt.seqid) ∧ fec' = fec ∨
        ∃ i ts asm, CutGather codec d p ps fec.decoder pkt i ts asm ∧
          Inserted d (blockOf d (k / (d + p)) ps) fec fec' pkt i ts asm) := by
  obtain ⟨pkt, hpkt, rfl, hcap, hcut, hdata, hwhole⟩ := decodeFecPacket_cut H hk hx ha
  rcases decode_cases hf.dec.sane hcap with ⟨hdup, hdec⟩ | ⟨i, ts, asm, hsc, hG, hdec⟩
  · refine ⟨pkt, fec, rfl, hcut, hwhole, ?_, hf, .inl ⟨hdup, rfl⟩⟩
    rw [fecDecode_eq hpkt hdata hdec]
    rfl
  · have hgather := hq.gather H hf.dec hcut hsc hG
    have hpush := push_cut H.lawful H.columnwise H.pos hf.dec hG (length_blockOf_le _ _ _)
      (fun b hb => H.pay b (mem_blockOf hb)) hgather.cutFrom hgather.present
      (fun hfull k hk hflag => hgather.reaches H (hcov pkt hpkt) hfull hk hflag)
      { fec with decoder := fec.decoder.after asm (insertAt fec.decoder.rx i pkt) }
      (by
        show fec.dataCh.length + d ≤ fec.dataChCap
        rw [hch, hf.cap, List.length_nil]
        omega)
    refine ⟨pkt,
      { fec with
        decoder := fec.decoder.after asm (insertAt fec.decoder.rx i pkt)
        dataCh := fec.dataCh ++ if blockLen (blockOf d (pkt.seqid.toNat / (d + p)) ps) ≤ 2 then []
          else restored d asm (blockOf d (pkt.seqid.toNat / (d + p)) ps) },
      rfl, hcut, hwhole, ?_, ⟨hf.dec.after hcap asm, hf.cap⟩,
      .inr ⟨i, ts, asm, hgather, hsc, hG, rfl, by rw [hch]; rfl⟩⟩
    rw [fecDecode_eq hpkt hdata hdec, hpush]
    rfl

/-- **A packet that starves is a panic**: a payload is restored to which none of the packets goes,
so its size is greater than what is there. -/
theorem starve_decode (H : Coding codec d p ps) (hf : FecAt codec d p fec)
    (hq : CutQueue codec d p ps fec.decoder.rx) (hk : k < 2 ^ 31)
    (hx : streamPacket codec d p ps k = some x) (ha : a.data = x.take (m + fecHeaderSizePlus2))
    (hst : fec.Starves d p ps a) : ∃ e, fec.decode a = .error e := by
  obtain ⟨pkt, hpkt, -, hcap, hcut, hdata, -⟩ := decodeFecPacket_cut H hk hx ha
  obtain ⟨pkt', hpkt', hnew, hmates, j, hj, hlost, hshort, q₀, hq₀, htwo⟩ := hst
  rw [hpkt, Except.ok.injEq] at hpkt'
  subst hpkt'
  rcases decode_cases hf.dec.sane hcap with ⟨⟨q, hq', hs⟩, -⟩ | ⟨i, ts, asm, hsc, hG, hdec⟩
  · exact absurd hs (hnew q hq')
  have hgather := hq.gather H hf.dec hcut hsc hG
  have hfull : d ≤ ts.length := by rwa [hgather.eq_filter H hmates, length_filter_insertAt]
  have hflag := (hgather.flag_iff H hmates hj).2 hlost
  have hpresent := Nat.le_trans hfull hgather.present
  obtain ⟨b, hb, -⟩ :=
    lost_full H.lawful H.pos hf.dec hG (length_blockOf_le _ _ _) hgather.cutFrom hpresent hj hflag
  have hlong : 2 < asm.maxlen :=
    Nat.lt_of_lt_of_le htwo (hG.asm.le_maxlen q₀ ((hgather.mem_iff H hmates).2 hq₀))
  have hmax : asm.maxlen < b.length + 2 := by
    rcases hG.asm.maxlen with h | ⟨q, hq, h⟩
    · omega
    · have := hshort q ((hgather.mem_iff H hmates).1 hq)
      rw [hb, Option.getD_some] at this
      omega
  have hnotall : asm.numDataShard ≠ d := by
    intro hall
    have hr := restored_full hf.dec hgather.ordered (fun q hq => (hgather.cutFrom q hq).flag) hfull
      hgather.block hG (blockOf d (pkt.seqid.toNat / (d + p)) ps)
    rw [restored, if_pos hall] at hr
    have := mem_lost.2 ⟨j, hj, hflag, hb⟩
    rw [← hr] at this
    cases this
  obtain ⟨e, he⟩ := pushRecovered_error
    (starved_shard H.lawful H.pos hf.dec hG (length_blockOf_le _ _ _) hgather.cutFrom hpresent
      H.columnwise hnotall (by rw [hG.asm.numshard]; exact hfull) hj hflag hb
      (H.pay b (mem_blockOf (List.mem_of_getElem? hb))) hlong hmax)
    { fec with decoder := fec.decoder.after asm (insertAt fec.decoder.rx i pkt) }
  refine ⟨e, ?_⟩
  rw [fecDecode_eq hpkt hdata hdec, he]
  rfl

end

end

end Faketcp
