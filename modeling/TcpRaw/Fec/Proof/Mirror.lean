import TcpRaw.Fec.Proof.Cut

/-!
# Two decoders in step

The moves of the decoder depend on the sequence ids and the flags of its packets, not on their
shards: `FecPacket.blank` forgets the shard, and decoders whose queues agree up to it gather the
same packets, restore the same payloads and agree up to it afterwards (`CutGather.after_blank`,
`CutGather.restored_eq`).

`Mirror` is a decoder whose packets may be cut next to one that has them whole. A packet that covers
what it makes the first one restore keeps it (`mirror_decode`).
-/

namespace Faketcp

open GoRt Erasure Keyed

section
variable {codec : Codec UInt8} {d p : Nat} {ps : List Bytes}

/-! ## Packets without their shards -/

/-- The packet without its shard: what the decoder's moves depend on. -/
def FecPacket.blank (q : FecPacket) : FecPacket := { q with data := Slice.ofList [] }

theorem blank_eq {q q' : FecPacket} (hs : q.seqid = q'.seqid) (hf : q.flag = q'.flag) :
    q.blank = q'.blank := by
  rw [FecPacket.blank, FecPacket.blank, hs, hf]

theorem insertAt_blank (rx : List FecPacket) (i : Nat) (pkt : FecPacket) :
    (insertAt rx i pkt).map FecPacket.blank = insertAt (rx.map FecPacket.blank) i pkt.blank := by
  simp [insertAt, List.map_take, List.map_drop]

theorem window_blank (dec : FecDecoder) (s : UInt32) (i : Nat) (rx : List FecPacket) :
    (dec.window s i rx).map FecPacket.blank = dec.window s i (rx.map FecPacket.blank) := by
  simp [FecDecoder.window, List.map_take, List.map_drop]

theorem blockRun_blank (n s : UInt32) (w : List FecPacket) :
    (blockRun n s w).map FecPacket.blank = blockRun n s (w.map FecPacket.blank) := by
  rw [blockRun, blockRun, List.takeWhile_map, List.filter_map]
  rfl

theorem skipped_blank (n s : UInt32) (w : List FecPacket) :
    skipped n s (w.map FecPacket.blank) = skipped n s w := by
  rw [skipped, skipped, List.takeWhile_map, List.length_map]
  rfl

theorem cut_blank (first n : Nat) (rx : List FecPacket) :
    (cut first n rx).map FecPacket.blank = cut first n (rx.map FecPacket.blank) := by
  simp [cut, List.map_take, List.map_drop]

theorem limited_blank (dec : FecDecoder) (rx : List FecPacket) :
    (dec.limited rx).map FecPacket.blank = dec.limited (rx.map FecPacket.blank) := by
  unfold FecDecoder.limited
  rw [List.length_map]
  split
  · rw [List.map_tail]
  · rfl

theorem scan_blank {rx : List FecPacket} {s : UInt32} {i : Nat} (h : ScanAt rx s i) :
    ScanAt (rx.map FecPacket.blank) s i := by
  have hget : ∀ (m : Nat) (q : FecPacket), (rx.map FecPacket.blank)[m]? = some q →
      ∃ q' : FecPacket, rx[m]? = some q' ∧ q'.seqid = q.seqid := by
    intro m q hq
    rw [List.getElem?_map] at hq
    obtain ⟨q', hq', rfl⟩ := Option.map_eq_some_iff.1 hq
    exact ⟨q', hq', rfl⟩
  refine ⟨by rw [List.length_map]; exact h.le, fun m q hm hq => ?_, fun m q hm hq => ?_⟩
  · obtain ⟨q', hq', he⟩ := hget m q hq
    rw [← he]
    exact h.after m q' hm hq'
  · obtain ⟨q', hq', he⟩ := hget m q hq
    rw [← he]
    exact h.before m q' hm hq'

theorem scan_unique {rx : List FecPacket} {s : UInt32} {i j : Nat} (hi : ScanAt rx s i)
    (hj : ScanAt rx s j) : i = j := by
  have hle : ∀ {i j : Nat}, ScanAt rx s i → ScanAt rx s j → j ≤ i := by
    intro i j hi hj
    by_contra hlt
    have hj1 : j - 1 < rx.length := by have := hj.le; omega
    have hget := List.getElem?_eq_getElem hj1
    exact (hi.after (j - 1) _ (by omega) hget).2 (hj.before (j - 1) _ (by omega) hget).2
  exact Nat.le_antisymm (hle hj hi) (hle hi hj)

/-- Queues that agree up to the shards have packets of the same sequence ids. -/
theorem exists_seqid_blank {rx rx' : List FecPacket} {s : UInt32}
    (h : rx.map FecPacket.blank = rx'.map FecPacket.blank) (hs : ∃ q ∈ rx, q.seqid = s) :
    ∃ q ∈ rx', q.seqid = s := by
  obtain ⟨q, hq, rfl⟩ := hs
  have hq := List.mem_map_of_mem (f := FecPacket.blank) hq
  rw [h] at hq
  obtain ⟨q', hq', he⟩ := List.mem_map.1 hq
  exact ⟨q', hq', (FecPacket.mk.inj he).1⟩

theorem map_seq_blank {rx rx' : List FecPacket}
    (h : rx.map FecPacket.blank = rx'.map FecPacket.blank) :
    rx.map FecPacket.seq = rx'.map FecPacket.seq := by
  have := congrArg (List.map FecPacket.seq) h
  rwa [List.map_map, List.map_map] at this

/-! ## What they gather -/

section
variable {f g : FecDecoder} {pkt pkt' : FecPacket} {i j : Nat} {ts ts' : List FecPacket}
  {a a' : Assembly}

/-- **Decoders whose queues differ in the shards only** gather the same packets, and their queues
differ in the shards only afterwards. -/
theorem CutGather.after_blank (H : Coding codec d p ps) (h : CutGather codec d p ps f pkt i ts a)
    (h' : CutGather codec d p ps g pkt' j ts' a') (hlim : f.rxlimit = g.rxlimit)
    (hkeys : f.rx.map FecPacket.blank = g.rx.map FecPacket.blank) (hpkt : pkt.blank = pkt'.blank) :
    ts.map FecPacket.blank = ts'.map FecPacket.blank ∧
      (f.after a (insertAt f.rx i pkt)).rx.map FecPacket.blank =
        (g.after a' (insertAt g.rx j pkt')).rx.map FecPacket.blank := by
  have hf := h.decAt
  have hg := h'.decAt
  have hpos := H.pos
  have hseq : pkt.seqid = pkt'.seqid := (FecPacket.mk.inj hpkt).1
  obtain rfl : i = j := by
    refine scan_unique (scan_blank h.scan) ?_
    rw [hkeys, hseq]
    exact scan_blank h'.scan
  have hins : (insertAt f.rx i pkt).map FecPacket.blank =
      (insertAt g.rx i pkt').map FecPacket.blank := by
    rw [insertAt_blank, insertAt_blank, hkeys, hpkt]
  have hwin : (f.window pkt.seqid i (insertAt f.rx i pkt)).map FecPacket.blank =
      (g.window pkt'.seqid i (insertAt g.rx i pkt')).map FecPacket.blank := by
    rw [window_blank, window_blank, hins, hseq]
    simp only [FecDecoder.window, hf.shardSize, hg.shardSize]
  have hts : ts.map FecPacket.blank = ts'.map FecPacket.blank := by
    rw [h.gathered.ts_eq, h'.gathered.ts_eq, blockRun_blank, blockRun_blank, hwin, hf.shardSize,
      hg.shardSize, hseq]
  have hlen : ts.length = ts'.length := by simpa using congrArg List.length hts
  refine ⟨hts, ?_⟩
  show (f.limited _).map _ = (g.limited _).map _
  rw [limited_blank, limited_blank, outcome_snd h.gathered, outcome_snd h'.gathered, hf.dataShards,
    hg.dataShards, ← hlen]
  have hout : (if d ≤ ts.length then cut a.first ts.length (insertAt f.rx i pkt)
      else insertAt f.rx i pkt).map FecPacket.blank =
      (if d ≤ ts.length then cut a'.first ts.length (insertAt g.rx i pkt')
      else insertAt g.rx i pkt').map FecPacket.blank := by
    split
    · rename_i hd
      have hfirst : a.first = a'.first := by
        rw [h.gathered.first (List.ne_nil_of_length_pos (by omega)),
          h'.gathered.first (List.ne_nil_of_length_pos (by omega)), ← skipped_blank,
          ← skipped_blank _ _ (g.window _ _ _), hwin, hf.shardSize, hg.shardSize, hseq]
      rw [cut_blank, cut_blank, hins, hfirst]
    · exact hins
  rw [hout, FecDecoder.limited, FecDecoder.limited, hlim]

/-- They restore the same payloads. -/
theorem CutGather.restored_eq (h : CutGather codec d p ps f pkt i ts a)
    (h' : CutGather codec d p ps g pkt' j ts' a')
    (hts : ts.map FecPacket.blank = ts'.map FecPacket.blank) (blk : List Bytes) :
    restored d a blk = restored d a' blk := by
  have hlen : ts.length = ts'.length := by simpa using congrArg List.length hts
  rcases Nat.lt_or_ge ts.length d with hlt | hge
  · rw [restored_few h.gathered hlt, restored_few h'.gathered (by omega)]
  rw [restored_full h.decAt h.ordered (fun q hq => (h.cutFrom q hq).flag) hge h.block h.gathered,
    restored_full h'.decAt h'.ordered (fun q hq => (h'.cutFrom q hq).flag) (by omega) h'.block
      h'.gathered, lost, lost]
  refine List.filterMap_congr fun k hk => ?_
  have hk : k < d + p := by have := List.mem_range.1 hk; omega
  have hmem : ∀ {ts : List FecPacket}, (∃ q ∈ ts, q.seq % (d + p) = k) ↔
      k ∈ (ts.map FecPacket.seq).map (· % (d + p)) := by
    intro ts
    rw [List.map_map, List.mem_map]
    rfl
  have hiff : a.shardsflag[k]?.getD false = true ↔ a'.shardsflag[k]?.getD false = true := by
    rw [h.gathered.flag_iff h.decAt hk, h'.gathered.flag_iff h'.decAt hk, hmem, hmem,
      map_seq_blank hts]
  simp only [hiff]

end

/-! ## The two decoders -/

/-- A decoder whose packets may be cut, next to one that has them whole. -/
structure Mirror (codec : Codec UInt8) (d p : Nat) (ps : List Bytes) (f g : Fec) : Prop where
  short : FecAt codec d p f
  ample : FecAt codec d p g
  queue : CutQueue codec d p ps f.decoder.rx
  whole : ∀ q ∈ g.decoder.rx, OfStream codec d p ps q
  limit : f.decoder.rxlimit = g.decoder.rxlimit
  keys : f.decoder.rx.map FecPacket.blank = g.decoder.rx.map FecPacket.blank
  ready : f.dataCh = g.dataCh
  sent : ∀ b ∈ g.dataCh, b ∈ ps

theorem Mirror.new {fec : Fec} (hf : FecAt codec d p fec) (hrx : fec.decoder.rx = [])
    (hch : fec.dataCh = []) : Mirror codec d p ps fec fec := by
  refine ⟨hf, hf, ⟨?_, ?_⟩, ?_, rfl, rfl, rfl, ?_⟩
  · rw [hrx]
    exact List.Pairwise.nil
  · rw [hrx]
    nofun
  · rw [hrx]
    nofun
  · rw [hch]
    nofun

theorem Mirror.pop {f g : Fec} (h : Mirror codec d p ps f g) {b : Bytes} {dataCh : List Bytes}
    (hch : g.dataCh = b :: dataCh) : Mirror codec d p ps (f.pop b dataCh) (g.pop b dataCh) :=
  ⟨⟨h.short.dec, h.short.cap⟩, ⟨h.ample.dec, h.ample.cap⟩, h.queue, h.whole, h.limit, h.keys, rfl,
    fun b' hb' => h.sent b' (by rw [hch]; exact List.mem_cons_of_mem _ hb')⟩

theorem Mirror.ampleQueue (H : Coding codec d p ps) {f g : Fec} (h : Mirror codec d p ps f g) :
    CutQueue codec d p ps g.decoder.rx := by
  refine ⟨?_, fun q hq => ⟨(h.whole q hq).lt, (h.whole q hq).fromBlock.cutFrom H.lawful H.pos⟩⟩
  have ho := h.queue.ordered
  unfold Ordered at ho ⊢
  rwa [← List.pairwise_map (f := FecPacket.seq), ← map_seq_blank h.keys, List.pairwise_map]

/-- Whole packets cover everything. -/
theorem covers_whole (H : Coding codec d p ps) {dec : FecDecoder}
    (hrx : ∀ q ∈ dec.rx, OfStream codec d p ps q) {pkt : FecPacket}
    (hpkt : OfStream codec d p ps pkt) : dec.Covers d p ps pkt := by
  have hreach : ∀ q, OfStream codec d p ps q → q.seqid.toNat / (d + p) = pkt.seqid.toNat / (d + p) →
      q.data.len = shardLen d (blockOf d (pkt.seqid.toNat / (d + p)) ps)
        (q.seqid.toNat % (d + p)) := by
    intro q hq hb
    rw [← hb, ← length_eq_shardLen H.lawful H.pos hq.fromBlock.shard, Slice.length_data]
  intro _ _ k _ _ q hq
  rcases List.mem_cons.1 hq with rfl | hq
  · exact .inl (hreach q hpkt rfl)
  · obtain ⟨hmem, hb⟩ := List.mem_filter.1 hq
    exact .inl (hreach q (hrx q hmem) (of_decide_eq_true hb))

theorem Coding.length_streamPacket_le (H : Coding codec d p ps) {k : Nat} {x : Bytes}
    (hx : streamPacket codec d p ps k = some x) : x.length ≤ mtuLimit + fecHeaderSize := by
  obtain ⟨shard, hshard, rfl⟩ := Option.map_eq_some_iff.1 hx
  have hle := (blockShard_length H.lawful H.pos hshard).2.1
  have hmtu := H.blockLen_le (k / (d + p))
  rw [length_packet]
  omega

/-- The payload of a packet of the stream was sent. -/
theorem mem_of_streamPayload {k : Nat} {b : Bytes} (h : streamPayload d p ps k = some b) :
    b ∈ ps := by
  unfold streamPayload at h
  split at h
  · exact mem_blockOf (List.mem_of_getElem? h)
  · cases h

theorem Coding.take_streamPayload (H : Coding codec d p ps) {M : Nat} (hM : mtuLimit ≤ M)
    (k : Nat) : (streamPayload d p ps k).map (List.take M) = streamPayload d p ps k := by
  cases hb : streamPayload d p ps k with
  | none => rfl
  | some b =>
    have := H.pay b (mem_of_streamPayload hb)
    unfold maxPayload at this
    rw [Option.map_some, List.take_of_length_le (by omega)]

/-- Both decoders after a packet that neither had. -/
theorem Mirror.after (H : Coding codec d p ps) {f g f' g' : Fec} (h : Mirror codec d p ps f g)
    {pkt pkt' : FecPacket} {i j : Nat} {ts ts' : List FecPacket} {asm asm' : Assembly} {B : Nat}
    (hG : CutGather codec d p ps f.decoder pkt i ts asm)
    (hG' : CutGather codec d p ps g.decoder pkt' j ts' asm') (hblank : pkt.blank = pkt'.blank)
    (hwhole : OfStream codec d p ps pkt') (hf' : FecAt codec d p f') (hg' : FecAt codec d p g')
    (hI : Inserted d (blockOf d B ps) f f' pkt i ts asm)
    (hI' : Inserted d (blockOf d B ps) g g' pkt' j ts' asm') : Mirror codec d p ps f' g' := by
  obtain ⟨hts, hrx⟩ := hG.after_blank H hG' h.limit h.keys hblank
  refine ⟨hf', hg', hG.queue.sublist hI.rx_sublist, fun q hq => ?_, ?_, ?_, ?_,
    fun b hb => mem_blockOf (hI'.mem_dataCh hb)⟩
  · rcases mem_insertAt.1 (hI'.rx_sublist.mem hq) with rfl | hq
    · exact hwhole
    · exact h.whole q hq
  · rw [hI.decoder, hI'.decoder]
    exact h.limit
  · rw [hI.decoder, hI'.decoder]
    exact hrx
  · rw [hI.dataCh, hI'.dataCh, hG.restored_eq hG' hts]

/-- **One packet in both decoders.** -/
theorem mirror_decode (H : Coding codec d p ps) {f g : Fec} (h : Mirror codec d p ps f g)
    (hch : f.dataCh = []) {k : Nat} (hk : k < 2 ^ 31) {a : Arrival}
    (hx : streamPacket codec d p ps k = some a.data) {m M : Nat} (hM : mtuLimit ≤ M)
    (hcov : f.Covers d p ps (a.readFrom (m + fecHeaderSizePlus2))) :
    ∃ f' g', f.decode (a.readFrom (m + fecHeaderSizePlus2)) =
        .ok ((streamPayload d p ps k).map (List.take m), f') ∧
      g.decode (a.readFrom (M + fecHeaderSizePlus2)) = .ok (streamPayload d p ps k, g') ∧
      Mirror codec d p ps f' g' := by
  have hlen : a.data.length ≤ M + fecHeaderSizePlus2 := by
    have := H.length_streamPacket_le hx
    unfold fecHeaderSizePlus2
    omega
  -- the packet is whole in the second decoder, so it covers everything there
  have hcov' : g.Covers d p ps (a.readFrom (M + fecHeaderSizePlus2)) := fun pkt hpkt => by
    obtain ⟨pkt₀, hpkt₀, -, -, -, -, hwhole₀⟩ :=
      decodeFecPacket_cut H hk hx (a := a.readFrom (M + fecHeaderSizePlus2)) rfl
    rw [hpkt₀, Except.ok.injEq] at hpkt
    exact covers_whole H h.whole (hpkt ▸ hwhole₀ hlen)
  obtain ⟨pkt, f', hseq, hcut, -, hdec, hf', hcase⟩ :=
    cut_step H h.short h.queue hch hk hx rfl hcov
  obtain ⟨pkt', g', hseq', hcut', hwhole, hdec', hg', hcase'⟩ :=
    cut_step H h.ample (h.ampleQueue H) (h.ready ▸ hch) hk hx rfl hcov'
  rw [H.take_streamPayload hM] at hdec'
  have hseqid : pkt.seqid = pkt'.seqid := UInt32.toNat_inj.1 (hseq.trans hseq'.symm)
  have hblank : pkt.blank = pkt'.blank :=
    blank_eq hseqid (by rw [hcut.cutFrom.flag, hcut'.cutFrom.flag, hseqid])
  refine ⟨f', g', hdec, hdec', ?_⟩
  rcases hcase with ⟨hdup, rfl⟩ | ⟨i, ts, asm, hG, hI⟩
  · rcases hcase' with ⟨-, rfl⟩ | ⟨i', ts', asm', hG', -⟩
    · exact h
    · obtain ⟨q, hq, hqs⟩ := exists_seqid_blank h.keys hdup
      exact absurd (hqs.trans hseqid) (hG'.new q hq)
  · rcases hcase' with ⟨hdup', rfl⟩ | ⟨i', ts', asm', hG', hI'⟩
    · obtain ⟨q, hq, hqs⟩ := exists_seqid_blank h.keys.symm hdup'
      exact absurd (hqs.trans hseqid.symm) (hG.new q hq)
    · exact h.after H hG hG' hblank (hwhole hlen) hf' hg' hI hI'

end

end Faketcp
