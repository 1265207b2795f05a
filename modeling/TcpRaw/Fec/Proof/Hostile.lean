import TcpRaw.Fec.Proof.Integrity

/-!
# Arbitrary input

`DecodeData` decodes whatever the peer sends. A string without a header, of a length that no pool
buffer holds, of an unknown type, or of type data and too short for the size field is a panic in
every state (`decode_malformed`). A well-formed string is harmless while its block has too few
packets to be reconstructed, or while it and the packets held in its block's range are packets of
one encoded block (`Harmless`); a run over harmless strings goes on to its end (`harmless_run`).
Nothing else is safe: two forged shards of a block are enough to make the size assertion fire
(`hostile_panics`). `FecDecoder.decode` below these checks survives any packets, and its queue stays
within its limit (`decode_any_packets`).
-/

namespace Faketcp

open GoRt Erasure

/-! ## Headers -/

/-- The type in the header of a received string. -/
def wireFlag (x : Bytes) : UInt16 :=
  match leUint16 (x.drop 4) with
  | .ok flag => flag
  | .error _ => 0

/-- A header, a shard that fits a pool buffer, and a known type; a data packet has a size field. -/
structure WellFormed (x : Bytes) : Prop where
  header : fecHeaderSize ≤ x.length
  fits : x.length ≤ mtuLimit + fecHeaderSize
  flag : wireFlag x = typeData ∧ fecHeaderSizePlus2 ≤ x.length ∨ wireFlag x = typeFEC

theorem decodeFecPacket_fields {x : Bytes} {buf : PoolBuf} {pkt : FecPacket}
    (h : decodeFecPacket x buf = .ok pkt) :
    wireSeqid x = pkt.seqid.toNat ∧ wireFlag x = pkt.flag ∧ pkt.data.cap = mtuLimit ∧
      pkt.data.len = x.length - 6 := by
  have hlen := decodeFecPacket_returns.1 ⟨pkt, h⟩
  unfold decodeFecPacket at h
  obtain ⟨seqid, hseqid, h⟩ := bind_ok h
  obtain ⟨flag, hflag, h⟩ := bind_ok h
  rw [sliceFrom_ok (by omega), ok_bind] at hflag
  rw [Slice.upto_ok (by show _ ≤ buf.arr.length; rw [buf.size]; omega), ok_bind] at h
  obtain ⟨shard, -, h⟩ := bind_ok h
  obtain ⟨t, ht, -, htlen, htcap⟩ := Slice.copyRange_ok
    (s := ⟨buf.arr, x.length - 6, by rw [buf.size]; omega⟩) (i := 0) (j := x.length - 6)
    (Nat.zero_le _) (by show _ ≤ buf.arr.length; rw [buf.size]; omega) shard
  simp only [Slice.ofList, ht, ok_bind, pure_eq_ok, Except.ok.injEq] at h
  subst h
  exact ⟨by rw [wireSeqid, hseqid], by rw [wireFlag, hflag], htcap.trans buf.size, htlen⟩

theorem packetPayload_returns {pkt : FecPacket} {x : Bytes} :
    Returns (packetPayload pkt x) ↔
      pkt.flag = typeData ∧ fecHeaderSizePlus2 ≤ x.length ∨ pkt.flag = typeFEC := by
  unfold packetPayload sliceFrom
  by_cases hd : pkt.flag = typeData
  · have hne : typeData ≠ typeFEC := by decide
    rw [if_pos hd, hd]
    by_cases hl : fecHeaderSizePlus2 ≤ x.length
    · simp [hl, Returns]
    · simp [hl, hne, Returns]
  · rw [if_neg hd]
    by_cases hf : pkt.flag = typeFEC
    · simp [hf, Returns]
    · simp [hd, hf, Returns]

theorem header_returns {a : Arrival} :
    Returns (decodeFecPacket a.data a.buf >>= fun pkt => packetPayload pkt a.data) ↔
      WellFormed a.data := by
  rw [returns_bind]
  constructor
  · rintro ⟨pkt, hpkt, hret⟩
    obtain ⟨hlo, hhi⟩ := decodeFecPacket_returns.1 ⟨pkt, hpkt⟩
    obtain ⟨-, hflag, -⟩ := decodeFecPacket_fields hpkt
    exact ⟨hlo, hhi, by rw [hflag]; exact packetPayload_returns.1 hret⟩
  · intro h
    obtain ⟨pkt, hpkt⟩ : Returns (decodeFecPacket a.data a.buf) :=
      decodeFecPacket_returns.2 ⟨h.header, h.fits⟩
    obtain ⟨-, hflag, -⟩ := decodeFecPacket_fields hpkt
    exact ⟨pkt, hpkt, packetPayload_returns.2 (by rw [← hflag]; exact h.flag)⟩

/-- **A malformed string panics**, whatever the decoder holds. -/
theorem decode_malformed (fec : Fec) {a : Arrival} (h : ¬ WellFormed a.data) :
    ¬ Returns (fec.decode a) := by
  intro hret
  unfold Fec.decode at hret
  obtain ⟨pkt, hpkt, hret⟩ := returns_bind.1 hret
  obtain ⟨data, hdata, -⟩ := returns_bind.1 hret
  exact h (header_returns.1 (returns_bind.2 ⟨pkt, hpkt, data, hdata⟩))

/-! ## Harmless strings -/

section
variable (codec : Codec UInt8) (d p : Nat)

/-- With the string `x`, the block of its sequence id has fewer than `d` packets. -/
def FewHeld (dec : FecDecoder) (x : Bytes) : Prop :=
  dec.rx.countP (fun q =>
    InBlock (UInt32.ofNat (d + p)) (UInt32.ofNat (wireSeqid x)) q.seqid) + 1 < d

/-- The string `x` is a packet of some encoded block, and so is every packet held in the range of
that block. -/
def OneBlock (dec : FecDecoder) (x : Bytes) : Prop :=
  ∃ blk : List Bytes, blk.length ≤ d ∧ (∀ b ∈ blk, b.length ≤ mtuLimit - 8) ∧
    ∃ seqid shard, x = packet seqid (flagOf d (seqid.toNat % (d + p))) shard ∧
      blockShard codec d blk (seqid.toNat % (d + p)) = some shard ∧
      ∀ q ∈ dec.rx, InBlock (UInt32.ofNat (d + p)) seqid q.seqid → FromBlock codec d p blk q

/-- What a string must meet, given the packets that the decoder holds when it arrives. -/
def Harmless (dec : FecDecoder) (x : Bytes) : Prop :=
  WellFormed x ∧ FewHeld d p dec x ∨ OneBlock codec d p dec x

/-- Each string of the arrivals is harmless in the state of the decoder in which it arrives. -/
def HarmlessRun : FecDecoder → List Arrival → Prop
  | _, [] => True
  | dec, a :: arrivals => Harmless codec d p dec a.data ∧
      ∀ pkt recovered dec', decodeFecPacket a.data a.buf = .ok pkt →
        dec.decode pkt = .ok (recovered, dec') → HarmlessRun dec' arrivals

end

section
variable {codec : Codec UInt8} {d p : Nat} {fec : Fec} {a : Arrival}

theorem pushRecovered_decoder : ∀ (rs : List Bytes) {fec fec' : Fec},
    Fec.pushRecovered rs fec = .ok fec' → fec'.decoder = fec.decoder
  | [], fec, fec', h => by cases h; rfl
  | r :: rs, fec, fec', h => by
    unfold Fec.pushRecovered at h
    split at h
    · exact pushRecovered_decoder rs h
    · obtain ⟨sz, -, h⟩ := bind_ok h
      split at h
      · cases h
      · obtain ⟨s, -, h⟩ := bind_ok h
        split at h
        · exact (pushRecovered_decoder rs h).trans rfl
        · cases h

theorem decode_decoder {data : Option Bytes} {fec' : Fec} (h : fec.decode a = .ok (data, fec')) :
    ∃ pkt recovered, decodeFecPacket a.data a.buf = .ok pkt ∧
      fec.decoder.decode pkt = .ok (recovered, fec'.decoder) := by
  unfold Fec.decode at h
  obtain ⟨pkt, hpkt, h⟩ := bind_ok h
  obtain ⟨data', -, h⟩ := bind_ok h
  obtain ⟨⟨recovered, decoder⟩, hdec, h⟩ := bind_ok h
  obtain ⟨fec1, hpush, h⟩ := bind_ok h
  cases h
  exact ⟨pkt, recovered, hpkt, by rw [hdec, pushRecovered_decoder recovered hpush]⟩

theorem length_gathered_le {dec : FecDecoder} {i : Nat} {pkt : FecPacket} {ts : List FecPacket}
    {asm : Assembly} (hG : Gathered dec pkt.seqid i (insertAt dec.rx i pkt) ts asm) :
    ts.length ≤ dec.rx.countP
      (fun q => InBlock (UInt32.ofNat dec.shardSize) pkt.seqid q.seqid) + 1 := by
  calc ts.length
      = ts.countP (fun q => InBlock (UInt32.ofNat dec.shardSize) pkt.seqid q.seqid) :=
        (List.countP_eq_length.2 fun q hq => by simpa using (hG.mem hq).2).symm
    _ ≤ (insertAt dec.rx i pkt).countP _ := hG.sublist.countP_le
    _ ≤ _ := by
      rw [insertAt, List.countP_append, List.countP_cons, ← Nat.add_assoc, ← List.countP_append,
        List.take_append_drop]
      split <;> omega

theorem few_decode (hf : FecAt codec d p fec) (hch : fec.dataCh = []) (hw : WellFormed a.data)
    (hfew : FewHeld d p fec.decoder a.data) :
    ∃ data fec', fec.decode a = .ok (data, fec') ∧ FecAt codec d p fec' ∧ fec'.dataCh = [] := by
  obtain ⟨data, hret⟩ := header_returns.2 hw
  obtain ⟨pkt, hpkt, hdata⟩ := bind_ok hret
  obtain ⟨hseq, -, hcap, -⟩ := decodeFecPacket_fields hpkt
  have hof : UInt32.ofNat (wireSeqid a.data) = pkt.seqid := by rw [hseq, UInt32.ofNat_toNat]
  unfold Fec.decode
  rw [hpkt, ok_bind, hdata, ok_bind]
  rcases decode_cases hf.dec.sane hcap with ⟨-, hd⟩ | ⟨i, ts, asm, -, hG, hd⟩
  · rw [hd]
    exact ⟨data, fec, rfl, hf, hch⟩
  · have hts : ts.length < d := by
      have hle := length_gathered_le hG
      rw [hf.dec.shardSize] at hle
      rw [FewHeld, hof] at hfew
      omega
    have hns := hG.asm.numshard
    have hnd := numDataShard_le hG.asm
    have hout : fec.decoder.outcome asm (insertAt fec.decoder.rx i pkt) =
        ([], insertAt fec.decoder.rx i pkt) := by
      rw [FecDecoder.outcome, hf.dec.dataShards, if_neg (by omega), if_neg (by omega)]
    rw [hd, hout]
    exact ⟨data, { fec with decoder := fec.decoder.after asm (insertAt fec.decoder.rx i pkt) }, rfl,
      ⟨hf.dec.after hcap asm, hf.cap⟩, hch⟩

theorem Harmless.length_ne_zero {dec : FecDecoder} {x : Bytes} (h : Harmless codec d p dec x) :
    x.length ≠ 0 := by
  rcases h with ⟨hw, -⟩ | ⟨blk, -, -, seqid, shard, rfl, -⟩
  · have := hw.header
    unfold fecHeaderSize at this
    omega
  · simp [packet]

/-- **One harmless string**: it is decoded, and the recovered payloads fit `dataCh`. -/
theorem harmless_decode (hlaw : codec.Lawful d p) (h0 : 0 < d) (hf : FecAt codec d p fec)
    (hch : fec.dataCh = []) (h : Harmless codec d p fec.decoder a.data) :
    ∃ data fec', fec.decode a = .ok (data, fec') ∧ FecAt codec d p fec' ∧
      fec'.dataCh.length ≤ d := by
  rcases h with ⟨hw, hfew⟩ | ⟨blk, hblk, hpay, seqid, shard, hx, hshard, hrx⟩
  · obtain ⟨data, fec', hdec, hf', hch'⟩ := few_decode hf hch hw hfew
    exact ⟨data, fec', hdec, hf', by rw [hch']; exact Nat.zero_le _⟩
  · obtain ⟨pkt, fec', -, -, -, -, hdec, hf', hcase⟩ :=
      fecDecode_block hlaw h0 hf hch hblk hpay hx hshard hrx
    exact ⟨_, fec', hdec, hf', hcase.length_dataCh hch⟩

/-- What holds along a run over harmless strings; `m` strings arrive in all. -/
structure Surviving (codec : Codec UInt8) (d p m : Nat) (fec : Fec) (arrivals : List Arrival)
    (out : List Bytes) : Prop where
  at_fec : FecAt codec d p fec
  harmless : HarmlessRun codec d p fec.decoder arrivals
  /-- Each string gives at most its payload and a block's. -/
  count : out.length + fec.dataCh.length + (d + 1) * arrivals.length ≤ (d + 1) * m

theorem surviving_step {m : Nat} (hlaw : codec.Lawful d p) (h0 : 0 < d) {arrivals : List Arrival}
    {out : List Bytes} (h : Surviving codec d p m fec (a :: arrivals) out) (hch : fec.dataCh = []) :
    ∃ data fec', fec.decode a = .ok (data, fec') ∧
      Surviving codec d p m fec' arrivals (out ++ data.toList) := by
  obtain ⟨hone, hrest⟩ := h.harmless
  obtain ⟨data, fec', hdec, hf', hlen⟩ := harmless_decode hlaw h0 h.at_fec hch hone
  obtain ⟨pkt, recovered, hpkt, hdecoder⟩ := decode_decoder hdec
  refine ⟨data, fec', hdec, hf', hrest pkt recovered _ hpkt hdecoder, ?_⟩
  have hcount := h.count
  have hdata : data.toList.length ≤ 1 := by cases data <;> simp
  rw [hch, List.length_nil, List.length_cons, Nat.mul_succ] at hcount
  rw [List.length_append]
  omega

/-- **Arbitrary input, while it is harmless.** A new `Fec` whose arrivals are each harmless for the
packets that the decoder holds when they arrive decodes them without a panic: every call of
`DecodeData` returns a payload until all strings are consumed, which they are after finitely many
calls. -/
theorem harmless_run {rs : Nat → Nat → Option (Codec UInt8)} (hrs : rs d p = some codec)
    (hlaw : codec.Lawful d p) (h0 : 1 ≤ d) (hp : 1 ≤ p) (hd : d + p ≤ 256)
    (hnew : newFec rs d p 0 = some fec) (arrivals : List Arrival)
    (hrun : HarmlessRun codec d p fec.decoder arrivals) (n : Nat) :
    ∃ outs fec' rest, Fec.decodeCalls n fec arrivals = .ok (outs, fec', rest) ∧
      (outs.length = n ∨ rest = []) ∧ ((d + 1) * arrivals.length < n → rest = []) := by
  obtain ⟨fec0, hnew0, -, hf, -, -, hch⟩ := newFec_ok h0 hp hd hrs
  obtain rfl : fec0 = fec := Option.some.inj (hnew0.symm.trans hnew)
  have hstart : Surviving codec d p arrivals.length fec0 arrivals [] :=
    ⟨hf, hrun, by rw [hch]; simp⟩
  obtain ⟨outs, fec', rest, hcalls, hend, hstop⟩ := decodeCalls_rule
    (I := Surviving codec d p arrivals.length)
    (fun fec _ out data dataCh h hch => ⟨⟨h.at_fec.dec, h.at_fec.cap⟩, h.harmless, by
      have hcount := h.count
      rw [hch, List.length_cons] at hcount
      show (out ++ [data]).length + dataCh.length + _ ≤ _
      rw [List.length_append, List.length_singleton]
      omega⟩)
    (fun _ _ _ _ h hlen => absurd hlen h.harmless.1.length_ne_zero)
    (fun _ _ _ _ h hch _ => surviving_step hlaw h0 h hch) n fec0 arrivals [] hstart
  refine ⟨outs, fec', rest, hcalls, hstop.imp_right And.left, fun hn => ?_⟩
  rcases hstop with hlen | ⟨hnil, -⟩
  · have hcount := hend.count
    rw [List.nil_append] at hcount
    omega
  · exact hnil

end

/-- A forged parity packet of block 0, and of block 1 the first data packet and the parity
packet. -/
def forgedThenBlock : List Arrival :=
  [⟨[2, 0, 0, 0, 0xf2, 0, 9, 9, 9], .new⟩, ⟨[3, 0, 0, 0, 0xf1, 0, 3, 0, 7], .new⟩,
    ⟨[5, 0, 0, 0, 0xf2, 0, 13, 0, 25, 18], .new⟩]

/-- The packets in the queue after some arrivals. -/
def queueAfter : FecDecoder → List Arrival → Go (List (UInt32 × UInt16 × Bytes))
  | dec, [] => .ok (dec.rx.map fun q => (q.seqid, q.flag, q.data.data))
  | dec, a :: arrivals => do
    let pkt ← decodeFecPacket a.data a.buf
    let r ← dec.decode pkt
    queueAfter r.2 arrivals

theorem queueAfter_cons {dec dec' : FecDecoder} {a : Arrival} {arrivals : List Arrival}
    {pkt : FecPacket} {recovered : List Bytes} (hpkt : decodeFecPacket a.data a.buf = .ok pkt)
    (hdec : dec.decode pkt = .ok (recovered, dec')) :
    queueAfter dec (a :: arrivals) = queueAfter dec' arrivals := by
  rw [queueAfter, hpkt, ok_bind, hdec, ok_bind]

/-- The forged packet is absorbed while it is alone in its block, and the second payload of the
other block is restored. -/
theorem harmless_run_rs21 :
    ∃ fec, newFec newRs21 2 1 0 = some fec ∧
      (Fec.decodeCalls 2 fec forgedThenBlock).toOption.map (·.1) = some [[7], [8, 9]] ∧
      ∀ n, ∃ outs fec' rest, Fec.decodeCalls n fec forgedThenBlock = .ok (outs, fec', rest) ∧
        (outs.length = n ∨ rest = []) ∧ ((2 + 1) * 3 < n → rest = []) := by
  obtain ⟨fec, hnew, -, -, hrx, -⟩ :=
    newFec_ok (by decide) (by decide) (by decide) (show newRs21 2 1 = some rs21 from rfl)
  have hout : (newFec newRs21 2 1 0).bind (fun fec =>
      (Fec.decodeCalls 2 fec forgedThenBlock).toOption.map (·.1)) = some [[7], [8, 9]] := by
    decide +kernel
  have hone : (newFec newRs21 2 1 0).bind (fun fec =>
      (queueAfter fec.decoder (forgedThenBlock.take 1)).toOption) =
        some [(2, 0xf2, [9, 9, 9])] := by decide +kernel
  have htwo : (newFec newRs21 2 1 0).bind (fun fec =>
      (queueAfter fec.decoder (forgedThenBlock.take 2)).toOption) =
        some [(2, 0xf2, [9, 9, 9]), (3, 0xf1, [3, 0, 7])] := by decide +kernel
  rw [hnew, Option.bind_some] at hout hone htwo
  refine ⟨fec, hnew, hout, harmless_run (show newRs21 2 1 = some rs21 from rfl) rs21_lawful
    (by decide) (by decide) (by decide) hnew _ ⟨.inl ⟨⟨by decide, by decide, by decide⟩, ?_⟩, ?_⟩⟩
  · rw [FewHeld, hrx]
    decide
  intro pkt0 recovered0 dec1 hpkt0 hdec1
  have hqueue1 := ok_of_toOption hone
  rw [show forgedThenBlock.take 1 = _ :: [] from rfl, queueAfter_cons hpkt0 hdec1] at hqueue1
  refine ⟨.inl ⟨⟨by decide, by decide, by decide⟩, ?_⟩, ?_⟩
  · -- only the forged packet is held
    have hcount : dec1.rx.countP (fun q => InBlock 3 3 q.seqid) =
        ([(2, 0xf2, [9, 9, 9])] : List (UInt32 × UInt16 × Bytes)).countP
          (fun q => InBlock 3 3 q.1) := by
      rw [← Except.ok.inj hqueue1, List.countP_map]
      rfl
    exact Nat.lt_of_le_of_lt (Nat.le_of_eq (congrArg (· + 1) hcount)) (by decide)
  intro pkt1 recovered1 dec2 hpkt1 hdec2
  have hqueue2 := ok_of_toOption htwo
  rw [show forgedThenBlock.take 2 = _ :: _ :: [] from rfl, queueAfter_cons hpkt0 hdec1,
    queueAfter_cons hpkt1 hdec2] at hqueue2
  refine ⟨.inr ⟨[[7], [8, 9]], by decide, by decide, 5, [13, 0, 25, 18], by decide,
    by decide +kernel, fun q hq hin => ?_⟩, fun _ _ _ _ _ => trivial⟩
  -- of the packets held, the data packet is of the block
  have hmem : (q.seqid, q.flag, q.data.data) ∈ [(2, 0xf2, [9, 9, 9]), (3, 0xf1, [3, 0, 7])] := by
    rw [← Except.ok.inj hqueue2]
    exact List.mem_map.2 ⟨q, hq, rfl⟩
  rcases List.mem_cons.1 hmem with heq | hmem
  · simp only [Prod.mk.injEq] at heq
    rw [heq.1] at hin
    exact absurd hin (by decide)
  · obtain ⟨hseq, hflag, hdata⟩ : q.seqid = 3 ∧ q.flag = 0xf1 ∧ q.data.data = [3, 0, 7] := by
      simpa using hmem
    refine ⟨?_, ?_⟩
    · rw [hflag, hseq]
      decide
    · rw [hseq, hdata]
      decide +kernel

/-- The panic of a call. -/
def panicOf {α : Type} : Go α → Option Panic
  | .ok _ => none
  | .error e => some e

theorem panicOf_eq_some {α : Type} {x : Go α} {e : Panic} : panicOf x = some e ↔ x = .error e := by
  cases x with
  | ok a => simp [panicOf]
  | error e' => simp [panicOf]

/-- **Input that takes the process down**: a single byte; a header of type data with nothing behind
it; an unknown type; and two forged packets of one block, a data packet and a parity packet, from
which the codec rebuilds a shard whose size field is larger than the shard. -/
theorem hostile_panics :
    ∃ fec, newFec newRs21 2 1 0 = some fec ∧
      Fec.decodeCalls 1 fec [⟨[0], .new⟩] = .error .indexOutOfRange ∧
      Fec.decodeCalls 1 fec [⟨[0, 0, 0, 0, 0xf1, 0], .new⟩] = .error .sliceBounds ∧
      Fec.decodeCalls 1 fec [⟨[0, 0, 0, 0, 0, 0], .new⟩] =
        .error (.explicit "fecPacket.GetType():0, TypeFEC:242") ∧
      Fec.decodeCalls 2 fec [⟨[0, 0, 0, 0, 0xf1, 0, 3, 0, 7], .new⟩,
          ⟨[2, 0, 0, 0, 0xf2, 0, 9, 9, 9], .new⟩] =
        .error (.explicit "fec data invalid size:35334, len(r):3") := by
  have hrun : (newFec newRs21 2 1 0).map (fun fec =>
      [panicOf (Fec.decodeCalls 1 fec [⟨[0], .new⟩]),
        panicOf (Fec.decodeCalls 1 fec [⟨[0, 0, 0, 0, 0xf1, 0], .new⟩]),
        panicOf (Fec.decodeCalls 1 fec [⟨[0, 0, 0, 0, 0, 0], .new⟩]),
        panicOf (Fec.decodeCalls 2 fec [⟨[0, 0, 0, 0, 0xf1, 0, 3, 0, 7], .new⟩,
          ⟨[2, 0, 0, 0, 0xf2, 0, 9, 9, 9], .new⟩])]) =
      some [some .indexOutOfRange, some .sliceBounds,
        some (.explicit "fecPacket.GetType():0, TypeFEC:242"),
        some (.explicit "fec data invalid size:35334, len(r):3")] := by decide +kernel
  obtain ⟨fec, hnew, hrun⟩ := Option.map_eq_some_iff.1 hrun
  simp only [List.cons.injEq, panicOf_eq_some, and_true] at hrun
  exact ⟨fec, hnew, hrun⟩

/-! ## The decoder alone

`FecDecoder.decode` itself, below the type switch and the size assertion, survives any packets:
their ids need not be ordered, aligned or comparable, and their flags may be anything. -/

/-- The calls of `Decode` with `pkts` in turn. -/
def FecDecoder.decodeAll : List FecPacket → FecDecoder → Go FecDecoder
  | [], dec => pure dec
  | pkt :: pkts, dec => do
    let r ← dec.decode pkt
    FecDecoder.decodeAll pkts r.2

/-- What calls with the packets `seen` leave: a queue within its limit that holds some of them. -/
structure FecDecoder.Holds (rxlimit : Nat) (seen : List FecPacket) (dec : FecDecoder) : Prop where
  sane : dec.Sane
  limit : dec.rxlimit = rxlimit
  bound : dec.rx.length ≤ rxlimit
  mem : ∀ q ∈ dec.rx, q ∈ seen

theorem length_limited_le {dec : FecDecoder} {rx : List FecPacket}
    (h : rx.length ≤ dec.rxlimit + 1) : (dec.limited rx).length ≤ dec.rxlimit := by
  unfold FecDecoder.limited
  split
  · rw [List.length_tail]
    omega
  · omega

/-- **One call on any packet.** -/
theorem FecDecoder.Holds.decode {rxlimit : Nat} {seen : List FecPacket} {dec : FecDecoder}
    (h : dec.Holds rxlimit seen) {pkt : FecPacket} (hcap : pkt.data.cap = mtuLimit) :
    ∃ out dec', dec.decode pkt = .ok (out, dec') ∧ dec'.Holds rxlimit (seen ++ [pkt]) := by
  rcases decode_cases h.sane hcap with ⟨-, hdec⟩ | ⟨i, ts, a, hscan, -, hdec⟩
  · exact ⟨_, _, hdec, h.sane, h.limit, h.bound,
      fun q hq => List.mem_append_left _ (h.mem q hq)⟩
  refine ⟨_, _, hdec, Sane.after h.sane hcap a, h.limit, ?_, fun q hq => ?_⟩
  · -- the insertion adds one packet; over the limit, the eviction takes one
    have hlen := (outcome_sublist dec a (insertAt dec.rx i pkt)).length_le
    have hbound := h.bound
    rw [length_insertAt hscan.le] at hlen
    rw [← h.limit] at hbound ⊢
    exact length_limited_le (by omega)
  · rcases mem_after hq with rfl | hq
    · exact List.mem_append_right _ (List.mem_singleton_self _)
    · exact List.mem_append_left _ (h.mem q hq)

theorem FecDecoder.Holds.decodeAll {rxlimit : Nat} : ∀ {pkts seen : List FecPacket}
    {dec : FecDecoder}, dec.Holds rxlimit seen → (∀ q ∈ pkts, q.data.cap = mtuLimit) →
      ∃ dec', dec.decodeAll pkts = .ok dec' ∧ dec'.Holds rxlimit (seen ++ pkts)
  | [], seen, dec, h, _ => ⟨dec, rfl, by rwa [List.append_nil]⟩
  | pkt :: pkts, seen, dec, h, hcap => by
    obtain ⟨out, dec₁, hdec, h₁⟩ := h.decode (hcap pkt List.mem_cons_self)
    obtain ⟨dec₂, hall, h₂⟩ := h₁.decodeAll fun q hq => hcap q (List.mem_cons_of_mem _ hq)
    refine ⟨dec₂, ?_, by rwa [List.append_assoc] at h₂⟩
    rw [FecDecoder.decodeAll, hdec]
    exact hall

theorem newFECDecoder_holds {rs : Nat → Nat → Option (Codec UInt8)} {rxlimit d p : Nat}
    {codec : Codec UInt8} (hrs : rs d p = some codec) (hd : 1 ≤ d) (hp : 1 ≤ p)
    (hmax : d + p ≤ 65536) (hlimit : d + p ≤ rxlimit) :
    ∃ dec, newFECDecoder rs rxlimit d p = some dec ∧ dec.Holds rxlimit [] ∧ dec.dataShards = d ∧
      dec.shardSize = d + p ∧ dec.rx = [] := by
  rw [newFECDecoder, if_neg (by omega), if_neg (by omega), hrs]
  refine ⟨_, rfl, ⟨⟨?_, rfl, ?_, rfl, fun _ hq => absurd hq List.not_mem_nil⟩, rfl, Nat.zero_le _,
    fun _ hq => absurd hq List.not_mem_nil⟩, rfl, rfl, rfl⟩
  · show 0 < d
    omega
  · show d + p < 2 ^ 31
    omega

/-- **`Decode` on any packets.** For every block size that the library accepts and every `rxlimit`
that holds a block, every call of a new decoder returns, whatever the ids, flags and contents of the
packets are; after every call the queue is within `rxlimit` and holds packets of the input only. The
codec is any: what `ReconstructData` fills in is not looked at. -/
theorem decode_any_packets {rs : Nat → Nat → Option (Codec UInt8)} (hlib : ShardLimit rs)
    {d p rxlimit : Nat} {codec : Codec UInt8} (hrs : rs d p = some codec) (hd : 1 ≤ d) (hp : 1 ≤ p)
    (hlimit : d + p ≤ rxlimit) (pkts : List FecPacket) (hcap : ∀ q ∈ pkts, q.data.cap = mtuLimit) :
    ∃ dec, newFECDecoder rs rxlimit d p = some dec ∧
      ∀ pre post, pkts = pre ++ post → ∃ dec', dec.decodeAll pre = .ok dec' ∧
        dec'.rx.length ≤ rxlimit ∧ ∀ q ∈ dec'.rx, q ∈ pre := by
  obtain ⟨dec, hnew, hholds, -⟩ := newFECDecoder_holds hrs hd hp (hlib d p codec hrs) hlimit
  refine ⟨dec, hnew, fun pre post hpre => ?_⟩
  obtain ⟨dec', hall, h⟩ := hholds.decodeAll fun q hq =>
    hcap q (hpre ▸ List.mem_append_left post hq)
  exact ⟨dec', hall, h.bound, h.mem⟩

/-- Packets whose ids the cyclic comparison puts in no order: each is ahead of the one before it,
and the first is ahead of the last. -/
theorem decode_any_packets_cyclic :
    ∃ dec, newFECDecoder newRs21 3 2 1 = some dec ∧
      ∀ pre post, [⟨0, 0, .ofList PoolBuf.new.arr⟩, ⟨0x60000000, 7, .ofList PoolBuf.new.arr⟩,
          ⟨0xc0000000, typeData, .ofList PoolBuf.new.arr⟩] = pre ++ post →
        ∃ dec', dec.decodeAll pre = .ok dec' ∧ dec'.rx.length ≤ 3 ∧ ∀ q ∈ dec'.rx, q ∈ pre := by
  refine decode_any_packets shardLimit_rs21 (show newRs21 2 1 = some rs21 from rfl) (by decide)
    (by decide) (by decide) _ fun q hq => ?_
  simp only [List.mem_cons, List.not_mem_nil, or_false] at hq
  rcases hq with rfl | rfl | rfl <;> exact PoolBuf.new.size

end Faketcp
