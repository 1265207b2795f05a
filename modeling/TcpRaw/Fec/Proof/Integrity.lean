import TcpRaw.Fec.Proof.Run
import TcpRaw.Fec.ReedSolomon21

/-!
# Integrity of the FEC layer

In a stream of fewer than `2 ^ 31` packets a sequence id is a packet's number, so the packets in
the queue that pass the assembly's tests for a packet's block are of that block
(`OfStream.fromBlock`), whatever order they came in and whatever was evicted before. From this
`fec_integrity`: whatever the network loses, repeats or reorders, the peer's `DecodeData` calls do
not panic, and return only payloads that were encoded.
-/

namespace Faketcp

open GoRt Erasure

section
variable {codec : Codec UInt8} {d p : Nat} {ps : List Bytes}

/-- `q` is a packet of the stream of `ps`, before sequence ids leave the lower half. -/
structure OfStream (codec : Codec UInt8) (d p : Nat) (ps : List Bytes) (q : FecPacket) :
    Prop where
  lt : q.seqid.toNat < 2 ^ 31
  fromBlock : FromBlock codec d p (blockOf d (q.seqid.toNat / (d + p)) ps) q

theorem toNat_shardBegin {n : Nat} (hn : n ≤ 256) (s : UInt32) :
    (shardBegin (UInt32.ofNat n) s).toNat = n * (s.toNat / n) := by
  have htn := UInt32.toNat_ofNat_of_lt' (Nat.lt_of_le_of_lt hn (by decide : 256 < UInt32.size))
  have hdm := Nat.div_add_mod s.toNat n
  rw [shardBegin, UInt32.toNat_sub_of_le, UInt32.toNat_mod, htn]
  · omega
  · rw [UInt32.le_iff_toNat_le, UInt32.toNat_mod, htn]
    exact Nat.mod_le _ _

theorem inBlock_iff_div {n : Nat} (h0 : 0 < n) (hn : n ≤ 256) {s t : UInt32}
    (hs : s.toNat < 2 ^ 31) (ht : t.toNat < 2 ^ 31) :
    InBlock (UInt32.ofNat n) s t ↔ t.toNat / n = s.toNat / n := by
  have htn := UInt32.toNat_ofNat_of_lt' (Nat.lt_of_le_of_lt hn (by decide : 256 < UInt32.size))
  have hdm := Nat.div_add_mod s.toNat n
  rw [inBlock_iff (by omega) (by omega), htn, UInt32.toNat_sub, toNat_shardBegin hn,
    Nat.div_eq_iff h0, Nat.mul_comm (s.toNat / n)]
  omega

theorem streamPacket_lt (h0 : 0 < d) (hd : d + p ≤ 256) {k : Nat} (hk : k < 2 ^ 31) {x : Bytes}
    (h : streamPacket codec d p ps k = some x) :
    ∃ shard, (UInt32.ofNat k).toNat = k ∧
      x = packet (UInt32.ofNat k) (flagOf d ((UInt32.ofNat k).toNat % (d + p))) shard ∧
      blockShard codec d (blockOf d ((UInt32.ofNat k).toNat / (d + p)) ps)
        ((UInt32.ofNat k).toNat % (d + p)) = some shard := by
  have hnat : (UInt32.ofNat k).toNat = k := by
    rw [UInt32.toNat_ofNat']
    omega
  have hpaws := (pawsOf_bounds (n := d + p) (by omega) hd).1
  obtain ⟨shard, hs, rfl⟩ := Option.map_eq_some_iff.1 h
  refine ⟨shard, hnat, ?_, ?_⟩
  · rw [hnat, Nat.mod_eq_of_lt (a := k) (by omega)]
  · rw [hnat, hs]

/-- What holds between the calls of `DecodeData` on arrivals from the stream of `ps`. -/
structure Good (codec : Codec UInt8) (d p : Nat) (ps : List Bytes) (fec : Fec)
    (arrivals : List Arrival) (out : List Bytes) : Prop where
  at_fec : FecAt codec d p fec
  rx : ∀ q ∈ fec.decoder.rx, OfStream codec d p ps q
  dataCh : ∀ b ∈ fec.dataCh, b ∈ ps
  returned : ∀ b ∈ out, b ∈ ps
  emitted : ∀ a ∈ arrivals, ∃ k < 2 ^ 31, streamPacket codec d p ps k = some a.data

/-- **One packet of the stream decoded**: `fecDecode_block` for the block of its sequence id. -/
theorem stream_step (hlaw : codec.Lawful d p) (h0 : 0 < d) (hd : d + p ≤ 256)
    (hpay : ∀ b ∈ ps, b.length ≤ maxPayload) {fec : Fec} {a : Arrival} (hf : FecAt codec d p fec)
    (hrx : ∀ q ∈ fec.decoder.rx, OfStream codec d p ps q) (hch : fec.dataCh = []) {k : Nat}
    (hk : k < 2 ^ 31) (hx : streamPacket codec d p ps k = some a.data) :
    ∃ pkt fec', pkt.seqid.toNat = k ∧ wireSeqid a.data = k ∧ OfStream codec d p ps pkt ∧
      fec.decode a = .ok (streamPayload d p ps k, fec') ∧ FecAt codec d p fec' ∧
      Decoded d (blockOf d (k / (d + p)) ps) fec fec' pkt := by
  obtain ⟨shard, hnat, ha, hshard⟩ := streamPacket_lt h0 hd hk hx
  generalize UInt32.ofNat k = seqid at *
  subst hnat
  obtain ⟨pkt, fec', -, rfl, -, hfrom, hdec, hfec', hcase⟩ :=
    fecDecode_block hlaw h0 hf hch (length_blockOf_le _ _ _)
      (fun b hb => hpay b (mem_blockOf hb)) ha hshard fun q hq hin => by
        rw [← (inBlock_iff_div (by omega) hd hk (hrx q hq).lt).1 hin]
        exact (hrx q hq).fromBlock
  exact ⟨pkt, fec', rfl, by rw [ha, wireSeqid_packet], ⟨hk, hfrom⟩, hdec, hfec', hcase⟩

theorem good_step (hlaw : codec.Lawful d p) (h0 : 0 < d) (hd : d + p ≤ 256)
    (hpay : ∀ b ∈ ps, b.length ≤ maxPayload) {fec : Fec} {a : Arrival} {arrivals : List Arrival}
    {out : List Bytes} (h : Good codec d p ps fec (a :: arrivals) out) (hch : fec.dataCh = []) :
    ∃ data fec', fec.decode a = .ok (data, fec') ∧
      Good codec d p ps fec' arrivals (out ++ data.toList) := by
  obtain ⟨k, hk, hx⟩ := h.emitted a (by simp)
  obtain ⟨pkt, fec', -, -, hpkt, hdec, hfec', hcase⟩ :=
    stream_step hlaw h0 hd hpay h.at_fec h.rx hch hk hx
  refine ⟨_, fec', hdec, hfec', ?_, ?_, ?_, fun a' ha' => h.emitted a' (by simp [ha'])⟩
  · intro q hq
    rcases hcase.mem_rx hq with rfl | hq
    · exact hpkt
    · exact h.rx q hq
  · exact fun b hb => mem_blockOf (hcase.mem_dataCh hch hb)
  · intro b hb
    rcases List.mem_append.1 hb with hb | hb
    · exact h.returned b hb
    · unfold streamPayload at hb
      split at hb
      · exact mem_blockOf (List.mem_of_getElem? (Option.mem_toList.1 hb))
      · cases hb

theorem good_pop {fec : Fec} {arrivals : List Arrival} {out : List Bytes} {data : Bytes}
    {dataCh : List Bytes} (h : Good codec d p ps fec arrivals out)
    (hch : fec.dataCh = data :: dataCh) :
    Good codec d p ps { fec with dataCh, rxBytes := fec.rxBytes + UInt64.ofNat data.length }
      arrivals (out ++ [data]) := by
  refine ⟨⟨h.at_fec.dec, h.at_fec.cap⟩, h.rx, fun b hb => ?_, fun b hb => ?_, h.emitted⟩
  · exact h.dataCh b (by rw [hch]; exact List.mem_cons_of_mem _ hb)
  · rcases List.mem_append.1 hb with hb | hb
    · exact h.returned b hb
    · rw [List.mem_singleton.1 hb]
      exact h.dataCh data (by simp [hch])

theorem newFec_ok {rs : Nat → Nat → Option (Codec UInt8)} (h0 : 0 < d) (hp : 0 < p)
    (hd : d + p ≤ 256) (hrs : rs d p = some codec) :
    ∃ fec, newFec rs d p 0 = some fec ∧ StreamAt codec d p fec.encoder [] ∧
      FecAt codec d p fec ∧ fec.decoder.rx = [] ∧ fec.decoder.rxlimit = 3 * (d + p) ∧
      fec.dataCh = [] := by
  obtain ⟨enc, he, hat⟩ := streamAt_new hrs h0 hp hd
  let dec : FecDecoder :=
    { rxlimit := 3 * (d + p), dataShards := d, parityShards := p, shardSize := d + p, rx := [],
      zeros := List.replicate mtuLimit 0, codec := codec }
  have hnew : newFECDecoder rs (3 * (d + p)) d p = some dec := by
    rw [newFECDecoder, if_neg (by omega), if_neg (by omega), hrs]
    rfl
  have hsane : dec.Sane :=
    ⟨h0, rfl, by show d + p < _; omega, rfl, by intro q hq; cases hq⟩
  refine ⟨{ encoder := enc, decoder := dec, dataCh := [], dataChCap := d + p, txBytes := 0,
            rxBytes := 0, dropPackets := 0 }, ?_, hat, ⟨⟨hsane, rfl, rfl, rfl⟩, rfl⟩, rfl, rfl, rfl⟩
  rw [newFec, he, hnew]
  rfl

/-- **Integrity of the FEC layer.** Payloads of up to `mtuLimit - 8` bytes are encoded in turn, any
subset of the send calls failing. Whatever sequence of sent packets then arrives at a fresh peer,
its `DecodeData` calls do not panic and return only payloads that were encoded. -/
theorem fec_integrity {rs : Nat → Nat → Option (Codec UInt8)} (hrs : rs d p = some codec)
    (hlaw : codec.Lawful d p) (h0 : 1 ≤ d) (hp : 1 ≤ p) (hd : d + p ≤ 256)
    (hpay : ∀ b ∈ ps, b.length ≤ mtuLimit - 8) (hcount : streamLength d p ps.length < 2 ^ 31)
    (fails : Nat → Bool) :
    ∃ fec fec' wire, newFec rs d p 0 = some fec ∧
      fec.encodeCalls Wire.send ps (Wire.new fails) = .ok (fec', wire) ∧
      ∀ (peer : Fec), newFec rs d p 0 = some peer →
        ∀ (arrivals : List Arrival), (∀ a ∈ arrivals, a.data ∈ wire.sent) →
        ∀ n, ∃ outs peer' rest, Fec.decodeCalls n peer arrivals = .ok (outs, peer', rest) ∧
          ∀ b ∈ outs, b ∈ ps := by
  obtain ⟨fec, hnew, hat, hfec, hrx, -, hch⟩ := newFec_ok h0 hp hd hrs
  obtain ⟨fec', wire, hrun, -, hsent⟩ :=
    encodeCalls_stream hlaw h0 hp hd ps (Wire.new fails) hat hpay
  refine ⟨fec, fec', wire, hnew, hrun, fun peer hpeer arrivals harr n => ?_⟩
  obtain rfl : fec = peer := Option.some.inj (hnew.symm.trans hpeer)
  have hgood : Good codec d p ps fec arrivals [] := by
    refine ⟨hfec, by simp [hrx], by simp [hch], by simp, fun a ha => ?_⟩
    rcases hsent a.data (harr a ha) with h | ⟨k, hk, hx⟩
    · cases h
    · exact ⟨k, Nat.lt_trans hk hcount, hx⟩
  obtain ⟨outs, peer', rest, hcalls, hgood', -⟩ := decodeCalls_rule
    (I := Good codec d p ps) (fun _ _ _ _ _ h hch => good_pop h hch)
    (fun _ _ _ _ h _ =>
      ⟨h.at_fec, h.rx, h.dataCh, h.returned, fun a ha => h.emitted a (List.mem_cons_of_mem _ ha)⟩)
    (fun _ _ _ _ h hch _ => good_step hlaw h0 hd hpay h hch) n fec arrivals [] hgood
  exact ⟨outs, peer', rest, hcalls, fun b hb => hgood'.returned b (by simpa using hb)⟩

end

/-- Three payloads with the codec of two data shards and one parity shard, every second send call
failing. -/
theorem fec_integrity_rs21 :
    ∃ fec fec' wire, newFec newRs21 2 1 0 = some fec ∧
      fec.encodeCalls Wire.send [[7], [], [1, 2, 3]] (Wire.new (· % 2 = 1)) = .ok (fec', wire) ∧
      ∀ (peer : Fec), newFec newRs21 2 1 0 = some peer →
        ∀ (arrivals : List Arrival), (∀ a ∈ arrivals, a.data ∈ wire.sent) →
        ∀ n, ∃ outs peer' rest, Fec.decodeCalls n peer arrivals = .ok (outs, peer', rest) ∧
          ∀ b ∈ outs, b ∈ ([[7], [], [1, 2, 3]] : List Bytes) :=
  fec_integrity (show newRs21 2 1 = some rs21 from rfl) rs21_lawful (by decide) (by decide)
    (by decide) (by decide) (by decide) _

end Faketcp
