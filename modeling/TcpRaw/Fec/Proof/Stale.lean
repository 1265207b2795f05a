import TcpRaw.Lib.Trans
import TcpRaw.Fec.Handover
import TcpRaw.Fec.Proof.Drain
import TcpRaw.Fec.Proof.Wrap

/-!
# Stale shards

The decoder knows a block by its sequence ids only. If a block number is handed over to another
block only while no packet with it is queued (`Handover`), then all queued packets with the number
are of the block that it stands for (`OwnedInv.held`), whatever the lives and the wraps: the shards
that the client passes to `ReconstructData` are of one block (`Isolated`), and what it returns was
sent (`stale_isolated`). Before the first renewal and the wrap no number is handed over, and every
read meets the condition (`handover_first_cycle`).

Nothing else keeps the blocks apart: a packet that an earlier `Fec` of the server left in the queue
is combined with one of the next `Fec` (`stale_mixed`), and a payload that was never sent is
returned.
-/

namespace Faketcp

open GoRt Erasure Trans

/-- `shards` are shards of block `B` of the payloads `ps`, padded. -/
def ShardsOf (codec : Codec UInt8) (d : Nat) (ps : List Bytes) (B : Nat)
    (shards : List (Option Bytes)) : Prop :=
  ∀ (j : Nat) (s : Bytes), shards[j]? = some (some s) →
    ∃ t m, blockShard codec d (blockOf d B ps) j = some t ∧ s = padTo m t

/-- If the event makes the client's decoder call `ReconstructData`, the shards it passes are of one
block of one `Fec` of the server. -/
def Isolated (codec : Codec UInt8) (d : Nat) (l : Link) : Link.Event → Prop
  | .read a => l.client.dataCh = [] → ∀ pkt shards, decodeFecPacket a.data a.buf = .ok pkt →
      l.client.decoder.reconstructArg pkt = .ok (some shards) →
      ∃ ps ∈ l.lives, ∃ B, ShardsOf codec d ps B shards
  | _ => True

/-- What holds in the states of a link whose reads meet `Handover`. -/
structure OwnedInv (codec : Codec UInt8) (d p : Nat) (o : Owned) : Prop where
  server : StreamAt codec d p o.link.server.encoder o.link.cur
  payload : ∀ ps ∈ o.link.lives, ∀ b ∈ ps, b.length ≤ maxPayload
  /-- Every message is a packet of one of the lives. -/
  sent : ∀ x ∈ o.link.wire.sent, ∃ i ps k, o.link.life i = some ps ∧
    streamPacket codec d p ps k = some x
  client : FecAt codec d p o.link.client
  /-- A queued packet is of the block that its number stands for. -/
  held : ∀ q ∈ o.link.client.decoder.rx, ∃ i b ps, o.owner (q.seqid.toNat / (d + p)) = some (i, b) ∧
    o.link.life i = some ps ∧ FromBlock codec d p (blockOf d b ps) q
  /-- A number stands for a block with packets that have it. -/
  owner : ∀ R i b, o.owner R = some (i, b) → ∃ ps k, o.link.life i = some ps ∧
    (streamPacket codec d p ps k).isSome ∧ b = k / (d + p) ∧ R = blockNumber (d + p) k
  dataCh : ∀ b ∈ o.link.client.dataCh, ∃ ps ∈ o.link.lives, b ∈ ps
  got : ∀ b ∈ o.link.got, ∃ ps ∈ o.link.lives, b ∈ ps

/-! ## The lives -/

section
variable {l l' : Link}

theorem life_mem {i : Nat} {ps : List Bytes} (h : l.life i = some ps) : ps ∈ l.lives :=
  List.mem_reverse.1 (List.mem_of_getElem? h)

theorem lives_reverse (l : Link) : l.lives.reverse = l.past.reverse ++ [l.cur] := by
  rw [Link.lives, List.reverse_cons]

theorem life_cur (l : Link) : l.life l.past.length = some l.cur := by
  rw [Link.life, lives_reverse, List.getElem?_append_right (by simp)]
  simp

/-- The lives go on: some have more payloads, and there may be further ones. -/
def LivesGrow (l l' : Link) : Prop :=
  ∀ i ps, l.life i = some ps → ∃ qs, l'.life i = some (ps ++ qs)

theorem livesGrow_write (b : Bytes) {server : Fec} {wire : Wire} :
    LivesGrow l { l with server, wire, cur := l.cur ++ [b] } := by
  intro i ps hi
  rw [Link.life, lives_reverse] at hi
  rcases Nat.lt_or_ge i l.past.reverse.length with hlt | hge
  · rw [List.getElem?_append_left hlt] at hi
    refine ⟨[], ?_⟩
    rw [Link.life, lives_reverse, List.getElem?_append_left hlt, hi, List.append_nil]
  · rw [List.getElem?_append_right hge] at hi
    obtain ⟨hlen, rfl⟩ := List.getElem?_eq_some_iff.1 hi
    refine ⟨[b], ?_⟩
    rw [Link.life, lives_reverse, List.getElem?_append_right hge, List.getElem?_singleton,
      if_pos (by simpa using hlen)]
    simp

theorem livesGrow_renew {server : Fec} :
    LivesGrow l { l with server, past := l.cur :: l.past, cur := [] } := by
  intro i ps hi
  refine ⟨[], ?_⟩
  have hlt : i < l.lives.reverse.length := (List.getElem?_eq_some_iff.1 hi).1
  rw [Link.life, lives_reverse]
  show (l.lives.reverse ++ [[]])[i]? = _
  rw [List.getElem?_append_left hlt, List.append_nil]
  exact hi

theorem LivesGrow.sent (h : LivesGrow l l') {b : Bytes} (hb : ∃ ps ∈ l.lives, b ∈ ps) :
    ∃ ps ∈ l'.lives, b ∈ ps := by
  obtain ⟨ps, hps, hb⟩ := hb
  obtain ⟨i, hi⟩ := List.mem_iff_getElem?.1 (List.mem_reverse.2 hps)
  obtain ⟨qs, hqs⟩ := h i ps hi
  exact ⟨_, life_mem hqs, List.mem_append_left _ hb⟩

end

section
variable {codec : Codec UInt8} {d p : Nat} {rs : Nat → Nat → Option (Codec UInt8)} {o : Owned}
  {l' : Link}

theorem OwnedInv.sent_grow (h : OwnedInv codec d p o) (hgrow : LivesGrow o.link l') :
    ∀ x ∈ o.link.wire.sent, ∃ i ps k, l'.life i = some ps ∧
      streamPacket codec d p ps k = some x := by
  intro x hx
  obtain ⟨i, ps, k, hi, hpkt⟩ := h.sent x hx
  obtain ⟨qs, hqs⟩ := hgrow i ps hi
  exact ⟨i, _, k, hqs, streamPacket_mono qs hpkt⟩

theorem OwnedInv.held_grow (h : OwnedInv codec d p o) (hgrow : LivesGrow o.link l') :
    ∀ q ∈ o.link.client.decoder.rx, ∃ i b ps,
      o.owner (q.seqid.toNat / (d + p)) = some (i, b) ∧ l'.life i = some ps ∧
        FromBlock codec d p (blockOf d b ps) q := by
  intro q hq
  obtain ⟨i, b, ps, hown, hi, hfrom⟩ := h.held q hq
  obtain ⟨qs, hqs⟩ := hgrow i ps hi
  exact ⟨i, b, _, hown, hqs, hfrom.flag, blockShard_mono hfrom.shard⟩

theorem OwnedInv.owner_grow (h : OwnedInv codec d p o) (hgrow : LivesGrow o.link l') :
    ∀ R i b, o.owner R = some (i, b) → ∃ ps k, l'.life i = some ps ∧
      (streamPacket codec d p ps k).isSome ∧ b = k / (d + p) ∧ R = blockNumber (d + p) k := by
  intro R i b hown
  obtain ⟨ps, k, hi, hpkt, hb, hR⟩ := h.owner R i b hown
  obtain ⟨qs, hqs⟩ := hgrow i ps hi
  obtain ⟨x, hx⟩ := Option.isSome_iff_exists.1 hpkt
  exact ⟨_, k, hqs, Option.isSome_iff_exists.2 ⟨x, streamPacket_mono qs hx⟩, hb, hR⟩

/-! ## Decoding -/

theorem streamPacket_eq (h0 : 0 < d) (hd : d + p ≤ 256) {ps : List Bytes} {k : Nat} {x : Bytes}
    (h : streamPacket codec d p ps k = some x) :
    ∃ shard, (UInt32.ofNat (k % pawsOf (d + p))).toNat % (d + p) = k % (d + p) ∧
      x = packet (UInt32.ofNat (k % pawsOf (d + p))) (flagOf d (k % (d + p))) shard ∧
      blockShard codec d (blockOf d (k / (d + p)) ps) (k % (d + p)) = some shard := by
  obtain ⟨shard, hs, rfl⟩ := Option.map_eq_some_iff.1 h
  refine ⟨shard, ?_, rfl, hs⟩
  show (streamId (d + p) k).toNat % (d + p) = k % (d + p)
  rw [toNat_streamId (by omega) hd, mod_pawsOf_mod]

theorem lt_streamLength (h0 : 0 < d) {ps : List Bytes} {k : Nat} {x : Bytes}
    (h : streamPacket codec d p ps k = some x) : k < streamLength d p ps.length := by
  obtain ⟨shard, hs, -⟩ := Option.map_eq_some_iff.1 h
  have hdm := Nat.div_add_mod k (d + p)
  rw [Nat.add_mul] at hdm
  unfold blockShard at hs
  unfold streamLength
  split at hs
  · rename_i hj
    obtain ⟨b, hb, -⟩ := Option.map_eq_some_iff.1 hs
    rw [getElem?_blockOf hj] at hb
    have hlt := (List.getElem?_eq_some_iff.1 hb).1
    have hle : k / (d + p) ≤ ps.length / d := by
      rw [Nat.le_div_iff_mul_le h0, Nat.mul_comm]
      omega
    have := Nat.mul_le_mul_left p hle
    rw [Nat.mul_comm p (ps.length / d)] at this
    omega
  · -- the block is full, and all of it is in the stream
    obtain ⟨hfull, -⟩ := Option.ite_none_right_eq_some.1 hs
    rw [blockOf, List.length_take, List.length_drop] at hfull
    have hle : k / (d + p) + 1 ≤ ps.length / d := by
      rw [Nat.le_div_iff_mul_le h0, Nat.add_one_mul, Nat.mul_comm]
      omega
    have hp := Nat.mul_le_mul_left p hle
    rw [Nat.mul_comm p (ps.length / d), Nat.mul_add_one] at hp
    have := Nat.mod_lt k (show 0 < d + p by omega)
    omega

/-- An id that passes the assembly's tests for packet `k` has the packet's block number. -/
theorem inBlock_blockNumber {n k : Nat} (h0 : 0 < n) (hn : n ≤ 256) {s : UInt32}
    (h : InBlock (UInt32.ofNat n) (streamId n k) s) : s.toNat / n = blockNumber n k := by
  have htn := UInt32.toNat_ofNat_of_lt' (Nat.lt_of_le_of_lt hn (by decide : 256 < UInt32.size))
  rw [inBlock_iff (by omega) (by omega), htn, UInt32.toNat_sub, toNat_shardBegin hn,
    toNat_streamId h0 hn] at h
  -- the block ends before the ids do
  have hlt := Nat.mod_lt k (pawsOf_pos h0 hn)
  have hbounds := (pawsOf_bounds h0 hn).2
  have hle : n * (k % pawsOf n / n) ≤ k % pawsOf n := Nat.mul_div_le _ _
  have hs := s.toNat_lt
  rw [blockNumber, div_eq_iff_bounds h0]
  omega

/-- The client decodes packet `k` of the payloads `ps` as `pkt`, returns `data` and is `fec'` then:
only that packet joins the queue, and all that comes out was sent. -/
structure DecodedAs (codec : Codec UInt8) (d p : Nat) (fec : Fec) (a : Arrival) (ps : List Bytes)
    (k : Nat) (pkt : FecPacket) (data : Option Bytes) (fec' : Fec) : Prop where
  seqid : pkt.seqid = streamId (d + p) k
  block : FromBlock codec d p (blockOf d (k / (d + p)) ps) pkt
  decode : fec.decode a = .ok (data, fec')
  fecAt : FecAt codec d p fec'
  sent : ∀ b ∈ data.toList ++ fec'.dataCh, b ∈ ps
  queue : ∀ q ∈ fec'.decoder.rx, q ∈ fec.decoder.rx ∨ fec.drops (d + p) k = false ∧ q = pkt
  shards : ∀ pkt shards, decodeFecPacket a.data a.buf = .ok pkt →
    fec.decoder.reconstructArg pkt = .ok (some shards) → ∃ B, ShardsOf codec d ps B shards

theorem insertionIndex_of_drops {fec : Fec} {n k : Nat} (h : fec.drops n k = true) :
    insertionIndex fec.decoder.rx (streamId n k) fec.decoder.rx.length = .ok none := by
  unfold Fec.drops at h
  split at h
  · assumption
  · cases h

section
variable (hlaw : codec.Lawful d p) (h0 : 0 < d) (hd : d + p ≤ 256) {fec : Fec}
  (hf : FecAt codec d p fec) {a : Arrival} (hch : fec.dataCh = []) {ps : List Bytes}
  (hpay : ∀ b ∈ ps, b.length ≤ maxPayload) {k : Nat}
  (hk : streamPacket codec d p ps k = some a.data)
include hlaw h0 hd hf hch hpay hk

theorem packet_dropped (hdrop : fec.drops (d + p) k = true) :
    ∃ pkt data, DecodedAs codec d p fec a ps k pkt data fec := by
  obtain ⟨shard, hmod, ha, hshard⟩ := streamPacket_eq h0 hd hk
  change (streamId (d + p) k).toNat % (d + p) = k % (d + p) at hmod
  change a.data = packet (streamId (d + p) k) _ shard at ha
  rw [← hmod] at ha hshard
  obtain ⟨pkt, hpkt, hseq, -, hfrom⟩ :=
    decodeFecPacket_block hlaw h0 (fun b hb => hpay b (mem_blockOf hb)) hshard a.buf
  have hdata := packetPayload_block hfrom.flag (hseq ▸ hshard) pkt.seqid
  rw [← ha] at hpkt
  rw [hseq, ← ha] at hdata
  -- the scan finds the sequence id
  have hscan := insertionIndex_of_drops hdrop
  rw [← hseq] at hscan
  have hdec : fec.decoder.decode pkt = .ok ([], fec.decoder) := by
    rw [FecDecoder.decode, hscan]
    rfl
  refine ⟨pkt, _, hseq, hfrom, (fecDecode_eq hpkt hdata hdec).trans rfl, hf, fun b hb => ?_,
    fun q hq => .inl hq, fun pkt' shards hpkt' harg => ?_⟩
  · rw [hch, List.append_nil] at hb
    split at hb
    · exact mem_blockOf (List.mem_of_getElem? (Option.mem_toList.1 hb))
    · cases hb
  · rw [hpkt] at hpkt'
    cases hpkt'
    rw [FecDecoder.reconstructArg, hscan] at harg
    cases harg

theorem packet_taken (hdrop : fec.drops (d + p) k = false)
    (hrx : ∀ q ∈ fec.decoder.rx, InBlock (UInt32.ofNat (d + p)) (streamId (d + p) k) q.seqid →
      FromBlock codec d p (blockOf d (k / (d + p)) ps) q) :
    ∃ pkt data fec', DecodedAs codec d p fec a ps k pkt data fec' := by
  obtain ⟨shard, hmod, ha, hshard⟩ := streamPacket_eq h0 hd hk
  change (streamId (d + p) k).toNat % (d + p) = k % (d + p) at hmod
  change a.data = packet (streamId (d + p) k) _ shard at ha
  rw [← hmod] at ha hshard
  obtain ⟨pkt, fec', hpkt, hseq, hcap, hfrom, hdec, hfec', hcase⟩ :=
    fecDecode_block hlaw h0 hf hch (length_blockOf_le _ _ _)
      (fun b hb => hpay b (mem_blockOf hb)) ha hshard hrx
  refine ⟨pkt, _, fec', hseq, hfrom, hdec, hfec', fun b hb => ?_, fun q hq => ?_,
    fun pkt' shards hpkt' harg => ?_⟩
  · rcases List.mem_append.1 hb with hb | hb
    · split at hb
      · exact mem_blockOf (List.mem_of_getElem? (Option.mem_toList.1 hb))
      · cases hb
    · exact mem_blockOf (hcase.mem_dataCh hch hb)
  · rcases hcase.mem_rx hq with rfl | hq
    · exact .inr ⟨hdrop, rfl⟩
    · exact .inl hq
  · rw [hpkt] at hpkt'
    cases hpkt'
    obtain ⟨i, ts, asm, -, hG, rfl⟩ := reconstructArg_cases hf.dec.sane hcap harg
    refine ⟨k / (d + p), fun j s hs => ?_⟩
    obtain ⟨t, hst, -, ht⟩ := blockShard_of_padded hf.dec hG
      (hG.fromBlock hf.dec hfrom (hseq ▸ hrx)) hs
    exact ⟨t, asm.maxlen, ht, hst⟩

/-- **The client decodes packet `k`** of the payloads `ps`: the queued packets in the range of its
block are of its own block, or it is dropped. -/
theorem packet_decode (hown : fec.drops (d + p) k = true ∨ ∀ q ∈ fec.decoder.rx,
      InBlock (UInt32.ofNat (d + p)) (streamId (d + p) k) q.seqid →
      FromBlock codec d p (blockOf d (k / (d + p)) ps) q) :
    ∃ pkt data fec', DecodedAs codec d p fec a ps k pkt data fec' := by
  cases hdrop : fec.drops (d + p) k with
  | true =>
    obtain ⟨pkt, data, h⟩ := packet_dropped hlaw h0 hd hf hch hpay hk hdrop
    exact ⟨pkt, data, fec, h⟩
  | false =>
    refine packet_taken hlaw h0 hd hf hch hpay hk hdrop (hown.resolve_left fun h => ?_)
    rw [hdrop] at h
    cases h

end

/-- A read of one message: it returns its payload, or the first one it made recoverable. -/
theorem decodeData_message {fec fec' : Fec} {a : Arrival} {data : Option Bytes}
    (hch : fec.dataCh = []) (hne : a.data.length ≠ 0) (hd : fec.decode a = .ok (data, fec')) :
    ∃ out fec'' rest, fec.decodeData [a] = .ok (out, fec'', rest) ∧
      fec''.decoder = fec'.decoder ∧ fec''.dataChCap = fec'.dataChCap ∧
      ∀ b, b ∈ out.toList ∨ b ∈ fec''.dataCh → b ∈ data.toList ++ fec'.dataCh := by
  unfold Fec.decodeData
  rw [hch]
  dsimp only
  rw [if_neg hne, hd, ok_bind]
  cases data with
  | some data => exact ⟨some data, fec', [], rfl, rfl, rfl, fun b hb => List.mem_append.2 hb⟩
  | none =>
    cases hch' : fec'.dataCh with
    | nil =>
      refine ⟨none, fec', [], ?_, rfl, rfl, fun b hb => ?_⟩
      · unfold Fec.decodeData
        rw [hch']
        rfl
      · rw [hch'] at hb
        simp at hb
    | cons r dataCh =>
      refine ⟨some r, _, [], decodeData_pop hch' [], rfl, rfl, fun b hb => ?_⟩
      simpa [Fec.pop] using hb

theorem OwnedInv.own_block (h : OwnedInv codec d p o) {i k : Nat} {ps : List Bytes}
    (hi : o.link.life i = some ps) (hfree : o.Free (d + p) i k) :
    o.link.client.drops (d + p) k = true ∨ ∀ q ∈ o.link.client.decoder.rx,
      q.seqid.toNat / (d + p) = blockNumber (d + p) k →
      FromBlock codec d p (blockOf d (k / (d + p)) ps) q := by
  rcases hfree with hnone | hown | hempty | hdrop
  · refine .inr fun q hq hnum => ?_
    obtain ⟨i', b, -, hsome, -⟩ := h.held q hq
    rw [hnum, hnone] at hsome
    cases hsome
  · refine .inr fun q hq hnum => ?_
    obtain ⟨i', b, ps', hsome, hi', hfrom⟩ := h.held q hq
    rw [hnum, hown] at hsome
    cases hsome
    rw [hi] at hi'
    cases hi'
    exact hfrom
  · exact .inr fun q hq hnum => absurd hnum (hempty q hq)
  · exact .inl hdrop

/-! ## The events -/

theorem owned_write (hlaw : codec.Lawful d p) (h0 : 0 < d) (hp : 0 < p) (hd : d + p ≤ 256)
    (h : OwnedInv codec d p o) {b : Bytes} (hposs : o.link.Possible (.write b)) :
    ∃ l', o.link.step rs d p (.write b) = .ok l' ∧
      OwnedInv codec d p { link := l', owner := o.owner } := by
  obtain ⟨err, server, wire, henc, hat, hsent⟩ :=
    encodeData_stream hlaw h0 hp hd h.server (b := b) hposs o.link.wire
  have hgrow : LivesGrow o.link { o.link with server, wire, cur := o.link.cur ++ [b] } :=
    livesGrow_write b
  refine ⟨{ o.link with server, wire, cur := o.link.cur ++ [b] }, ?_, hat, ?_, fun x hx => ?_,
    h.client, h.held_grow hgrow, h.owner_grow hgrow, fun b hb => hgrow.sent (h.dataCh b hb),
    fun b hb => hgrow.sent (h.got b hb)⟩
  · rw [Link.step, henc]
    rfl
  · intro ps hps b' hb'
    rcases List.mem_cons.1 hps with rfl | hps
    · rcases List.mem_append.1 hb' with hb' | hb'
      · exact h.payload o.link.cur List.mem_cons_self b' hb'
      · rw [List.mem_singleton.1 hb']
        exact hposs
    · exact h.payload ps (List.mem_cons_of_mem _ hps) b' hb'
  · rcases hsent x hx with hx | ⟨k, -, hpkt⟩
    · exact h.sent_grow hgrow x hx
    · exact ⟨_, _, k, life_cur _, hpkt⟩

theorem owned_renew (hrs : rs d p = some codec) (h0 : 0 < d) (hp : 0 < p) (hd : d + p ≤ 256)
    (h : OwnedInv codec d p o) :
    ∃ l', o.link.step rs d p .renew = .ok l' ∧
      OwnedInv codec d p { link := l', owner := o.owner } := by
  obtain ⟨fec, hnew, hat, -⟩ := newFec_ok h0 hp hd hrs
  have hgrow : LivesGrow o.link
      { o.link with server := fec, past := o.link.cur :: o.link.past, cur := [] } := livesGrow_renew
  refine ⟨{ o.link with server := fec, past := o.link.cur :: o.link.past, cur := [] }, ?_, hat, ?_,
    h.sent_grow hgrow, h.client, h.held_grow hgrow, h.owner_grow hgrow,
    fun b hb => hgrow.sent (h.dataCh b hb), fun b hb => hgrow.sent (h.got b hb)⟩
  · rw [Link.step, hnew]
    rfl
  · intro ps hps b hb
    rcases List.mem_cons.1 hps with rfl | hps
    · cases hb
    · exact h.payload ps hps b hb

theorem handed_waiting {a : Arrival} {i k n : Nat} (hch : o.link.client.dataCh ≠ []) :
    o.handed n (.read a i k) = o.owner := by
  funext R
  exact if_neg fun h => hch h.2.1

theorem owned_waiting (h : OwnedInv codec d p o) (a : Arrival) {data : Bytes} {dataCh : List Bytes}
    (hch : o.link.client.dataCh = data :: dataCh) :
    ∃ l', o.link.step rs d p (.read a) = .ok l' ∧
      OwnedInv codec d p { link := l', owner := o.owner } := by
  refine ⟨{ o.link with
    client := o.link.client.pop data dataCh
    got := o.link.got ++ [data] }, ?_, h.server, h.payload, h.sent, ⟨h.client.dec, h.client.cap⟩,
      h.held, h.owner, fun b hb => ?_, fun b hb => ?_⟩
  · rw [Link.step, decodeData_pop hch [a]]
    rfl
  · exact h.dataCh b (by rw [hch]; exact List.mem_cons_of_mem _ hb)
  · rcases List.mem_append.1 hb with hb | hb
    · exact h.got b hb
    · rw [List.mem_singleton.1 hb]
      exact h.dataCh data (by rw [hch]; exact List.mem_cons_self)

theorem owned_read (hlaw : codec.Lawful d p) (h0 : 0 < d) (hd : d + p ≤ 256)
    (h : OwnedInv codec d p o) {a : Arrival} {i k : Nat} (hch : o.link.client.dataCh = [])
    (hhand : o.Handover codec d p (.read a i k)) :
    ∃ l', o.link.step rs d p (.read a) = .ok l' ∧
      OwnedInv codec d p { link := l', owner := o.handed (d + p) (.read a i k) } ∧
      Isolated codec d o.link (.read a) := by
  obtain ⟨hlabel, hfree⟩ := hhand hch
  obtain ⟨ps, hi, hk⟩ := Option.bind_eq_some_iff.1 hlabel
  have hps := life_mem hi
  have hown := h.own_block hi hfree
  obtain ⟨pkt, data, fec', hseq, hfrom, hdec, hfec', hmem, hrx, harg⟩ :=
    packet_decode hlaw h0 hd h.client hch (h.payload ps hps) hk
      (hown.imp_right fun hblock q hq hin =>
        hblock q hq (inBlock_blockNumber (by omega) hd hin))
  obtain ⟨out, fec'', rest, hread, hdec'', hcap'', hsub⟩ :=
    decodeData_message hch (length_streamPacket_ne hk) hdec
  have hnumber : pkt.seqid.toNat / (d + p) = blockNumber (d + p) k := by
    rw [hseq, toNat_streamId (by omega) hd, blockNumber]
  refine ⟨{ o.link with client := fec'', got := o.link.got ++ out.toList }, ?_,
    ⟨h.server, h.payload, h.sent, ⟨hdec'' ▸ hfec'.dec, hcap''.trans hfec'.cap⟩,
    fun q hq => ?_, fun R i' b hR => ?_,
    fun b hb => ⟨ps, hps, hmem b (hsub b (.inr hb))⟩, fun b hb => ?_⟩,
    fun _ pkt shards hpkt hs => ⟨ps, hps, harg pkt shards hpkt hs⟩⟩
  · rw [Link.step, hread]
    rfl
  · -- a queued packet with the number of the new one is of its block
    rw [hdec''] at hq
    by_cases htaken : q.seqid.toNat / (d + p) = blockNumber (d + p) k ∧
        o.link.client.drops (d + p) k = false
    · refine ⟨i, k / (d + p), ps, if_pos ⟨htaken.1, hch, htaken.2⟩, hi, ?_⟩
      rcases hrx q hq with hold | ⟨-, rfl⟩
      · refine hown.resolve_left (fun hdrop => ?_) q hold htaken.1
        rw [htaken.2] at hdrop
        cases hdrop
      · exact hfrom
    · have hold : q ∈ o.link.client.decoder.rx := by
        rcases hrx q hq with hold | ⟨hkept, rfl⟩
        · exact hold
        · exact absurd ⟨hnumber, hkept⟩ htaken
      obtain ⟨i', b, ps', hsome, hi', hfrom'⟩ := h.held q hold
      exact ⟨i', b, ps', (if_neg fun h => htaken ⟨h.1, h.2.2⟩).trans hsome, hi', hfrom'⟩
  · change (if _ then _ else _) = _ at hR
    split at hR
    · rename_i hnew
      cases hR
      exact ⟨ps, k, hi, by rw [hk]; rfl, rfl, hnew.1⟩
    · exact h.owner R i' b hR
  · rcases List.mem_append.1 hb with hb | hb
    · exact h.got b hb
    · exact ⟨ps, hps, hmem b (hsub b (.inl hb))⟩

/-- **One event** that meets the condition. -/
theorem owned_step (hrs : rs d p = some codec) (hlaw : codec.Lawful d p) (h0 : 0 < d) (hp : 0 < p)
    (hd : d + p ≤ 256) (h : OwnedInv codec d p o) {e : Owned.Event}
    (hposs : o.link.Possible e.plain) (hhand : o.Handover codec d p e) :
    ∃ l', o.link.step rs d p e.plain = .ok l' ∧
      OwnedInv codec d p { link := l', owner := o.handed (d + p) e } ∧
      Isolated codec d o.link e.plain := by
  cases e with
  | write b =>
    obtain ⟨l', hs, hinv⟩ := owned_write hlaw h0 hp hd h hposs
    exact ⟨l', hs, hinv, trivial⟩
  | renew =>
    obtain ⟨l', hs, hinv⟩ := owned_renew hrs h0 hp hd h
    exact ⟨l', hs, hinv, trivial⟩
  | read a i k =>
    cases hch : o.link.client.dataCh with
    | cons data dataCh =>
      obtain ⟨l', hs, hinv⟩ := owned_waiting h a hch
      refine ⟨l', hs, ?_, fun hnil => ?_⟩
      · rwa [handed_waiting (by rw [hch]; nofun)]
      · rw [hch] at hnil
        cases hnil
    | nil => exact owned_read hlaw h0 hd h hch hhand

theorem owned_start (hrs : rs d p = some codec) (h0 : 0 < d) (hp : 0 < p) (hd : d + p ≤ 256)
    (h : o.Start rs d p) : OwnedInv codec d p o := by
  obtain ⟨⟨fec, fails, hnew, hl⟩, howner⟩ := h
  obtain ⟨fec', hnew', hat, hfec, hrx, -, hch⟩ := newFec_ok h0 hp hd hrs
  obtain rfl : fec' = fec := Option.some.inj (hnew'.symm.trans hnew)
  obtain ⟨l, owner⟩ := o
  obtain rfl : l = Link.new fec' fails := hl
  refine ⟨hat, ?_, nofun, hfec, ?_, ?_, ?_, nofun⟩
  · intro ps hps b hb
    rw [List.mem_singleton.1 hps] at hb
    cases hb
  · intro q hq
    rw [show (Link.new fec' fails).client.decoder.rx = [] from hrx] at hq
    cases hq
  · intro R i b hR
    rw [howner R] at hR
    cases hR
  · intro b hb
    rw [show (Link.new fec' fails).client.dataCh = [] from hch] at hb
    cases hb

theorem Owned.step_eq {o' : Owned} {e : Owned.Event} (h : o.step rs codec d p e = some o') :
    o.link.Possible e.plain ∧ o.Handover codec d p e ∧ o.link.step rs d p e.plain = .ok o'.link ∧
      o'.owner = o.handed (d + p) e := by
  obtain ⟨⟨hposs, hhand⟩, h⟩ := Option.ite_none_right_eq_some.1 h
  obtain ⟨l', hl', rfl⟩ := Option.map_eq_some_iff.1 h
  exact ⟨hposs, hhand, ok_of_toOption hl', rfl⟩

/-- **Runs** that meet the condition. -/
theorem owned_run (hrs : rs d p = some codec) (hlaw : codec.Lawful d p) (h0 : 0 < d) (hp : 0 < p)
    (hd : d + p ≤ 256)
    (ho : Reach (Owned.Start rs d p) (fun o e o' => o.step rs codec d p e = some o') o) :
    OwnedInv codec d p o := by
  refine ho.invariant (fun o ho => owned_start hrs h0 hp hd ho) fun o e o' hinv hstep => ?_
  obtain ⟨hposs, hhand, hlink, howner⟩ := Owned.step_eq hstep
  obtain ⟨l', hs, hinv', -⟩ := owned_step hrs hlaw h0 hp hd hinv hposs hhand
  rw [hlink] at hs
  obtain ⟨link, owner⟩ := o'
  cases hs
  cases howner
  exact hinv'

/-- **Stale-shard isolation.** In every state of a link in whose history a block number was handed
over to another block, of the same or of a later `Fec` of the server, only while the client held no
packet with it: a further event of that kind does not panic, the shards that the client passes to
`ReconstructData` are of one block of one `Fec`, and all that the client returned was sent. -/
theorem stale_isolated (hrs : rs d p = some codec) (hlaw : codec.Lawful d p) (h0 : 1 ≤ d)
    (hp : 1 ≤ p) (hd : d + p ≤ 256)
    (ho : Reach (Owned.Start rs d p) (fun o e o' => o.step rs codec d p e = some o') o)
    {e : Owned.Event} (hposs : o.link.Possible e.plain) (hhand : o.Handover codec d p e) :
    Isolated codec d o.link e.plain ∧ ∃ l', o.link.step rs d p e.plain = .ok l' ∧
      ∀ b ∈ l'.got, ∃ ps ∈ l'.lives, b ∈ ps := by
  have hinv := owned_run hrs hlaw h0 hp hd ho
  obtain ⟨l', hs, hinv', hiso⟩ := owned_step hrs hlaw h0 hp hd hinv hposs hhand
  exact ⟨hiso, l', hs, hinv'.got⟩

/-- What a read of the message `a` passes to `ReconstructData`. -/
def Link.passed (l : Link) (a : Arrival) : Option (List (Option Bytes)) :=
  match l.client.dataCh, decodeFecPacket a.data a.buf with
  | [], .ok pkt => (l.client.decoder.reconstructArg pkt).toOption.join
  | _, _ => none

/-- A block is completed with its parity packet before the server's `FakeConn` is renewed. Number 0
is then handed over to the first block of the new `Fec`, of which a data packet and the parity
packet arrive: the other payload is restored from these two. -/
theorem stale_isolated_rs21 :
    ∃ o, Reach (Owned.Start newRs21 2 1) (fun o e o' => o.step newRs21 rs21 2 1 e = some o') o ∧
      o.link.past = [[[7], [8]]] ∧
      o.link.passed ⟨[2, 0, 0, 0, 0xf2, 0, 3, 0, 14], .new⟩ =
        some [some [3, 0, 2], none, some [3, 0, 14]] ∧
      Isolated rs21 2 o.link (.read ⟨[2, 0, 0, 0, 0xf2, 0, 3, 0, 14], .new⟩) ∧
      ∃ l', o.link.step newRs21 2 1 (.read ⟨[2, 0, 0, 0, 0xf2, 0, 3, 0, 14], .new⟩) = .ok l' ∧
        ∀ b ∈ l'.got, ∃ ps ∈ l'.lives, b ∈ ps := by
  have hrun : ((newFec newRs21 2 1 0).bind fun fec =>
      (exec (Owned.step newRs21 rs21 2 1) [.write [7], .write [8],
        .read ⟨[0, 0, 0, 0, 0xf1, 0, 3, 0, 7], .new⟩ 0 0,
        .read ⟨[2, 0, 0, 0, 0xf2, 0, 3, 0, 25], .new⟩ 0 2, .renew, .write [2], .write [4],
        .read ⟨[0, 0, 0, 0, 0xf1, 0, 3, 0, 2], .new⟩ 1 0]
        ⟨Link.new fec fun _ => false, fun _ => none⟩).map fun o =>
      (o.link.past, o.link.passed ⟨[2, 0, 0, 0, 0xf2, 0, 3, 0, 14], .new⟩,
        decide (o.link.Possible (.read ⟨[2, 0, 0, 0, 0xf2, 0, 3, 0, 14], .new⟩)),
        decide (o.Handover rs21 2 1 (.read ⟨[2, 0, 0, 0, 0xf2, 0, 3, 0, 14], .new⟩ 1 2)))) =
      some ([[[7], [8]]], some [some [3, 0, 2], none, some [3, 0, 14]], true, true) := by
    decide +kernel
  obtain ⟨fec, hnew, hrun⟩ := Option.bind_eq_some_iff.1 hrun
  obtain ⟨o, ho, hrun⟩ := Option.map_eq_some_iff.1 hrun
  simp only [Prod.mk.injEq, decide_eq_true_eq] at hrun
  obtain ⟨hpast, hpassed, hposs, hhand⟩ := hrun
  have hreach : Reach (Owned.Start newRs21 2 1)
      (fun o e o' => o.step newRs21 rs21 2 1 e = some o') o :=
    Reach.exec (fun _ _ _ h => h) (.init ⟨⟨fec, _, hnew, rfl⟩, fun _ => rfl⟩) ho
  exact ⟨o, hreach, hpast, hpassed,
    stale_isolated (show newRs21 2 1 = some rs21 from rfl) rs21_lawful (by decide) (by decide)
      (by decide) hreach (e := .read ⟨[2, 0, 0, 0, 0xf2, 0, 3, 0, 14], .new⟩ 1 2) hposs hhand⟩

/-- **Before the first renewal and the wrap** every possible read meets the condition. -/
theorem handover_first_cycle (hrs : rs d p = some codec) (hlaw : codec.Lawful d p) (h0 : 1 ≤ d)
    (hp : 1 ≤ p) (hd : d + p ≤ 256)
    (ho : Reach (Owned.Start rs d p) (fun o e o' => o.step rs codec d p e = some o') o)
    (hpast : o.link.past = []) (hwrap : streamLength d p o.link.cur.length ≤ pawsOf (d + p))
    {a : Arrival} (ha : o.link.Possible (.read a)) :
    ∃ i k, o.Handover codec d p (.read a i k) := by
  have hinv := owned_run hrs hlaw h0 hp hd ho
  -- there is one life, and the positions in it are the ids
  have hlife : ∀ i ps, o.link.life i = some ps → i = 0 ∧ ps = o.link.cur := by
    intro i ps hi
    rw [Link.life, lives_reverse, hpast, List.reverse_nil, List.nil_append,
      List.getElem?_singleton] at hi
    obtain ⟨rfl, hps⟩ := Option.ite_none_right_eq_some.1 hi
    exact ⟨rfl, (Option.some.inj hps).symm⟩
  have hnumber : ∀ k, (streamPacket codec d p o.link.cur k).isSome →
      blockNumber (d + p) k = k / (d + p) := by
    intro k hk
    obtain ⟨x, hx⟩ := Option.isSome_iff_exists.1 hk
    rw [blockNumber, Nat.mod_eq_of_lt (Nat.lt_of_lt_of_le (lt_streamLength h0 hx) hwrap)]
  obtain ⟨i, ps, k, hi, hk⟩ := hinv.sent a.data ha
  obtain ⟨rfl, rfl⟩ := hlife i ps hi
  refine ⟨0, k, fun _ => ⟨by rw [hi]; exact hk, ?_⟩⟩
  cases hown : o.owner (blockNumber (d + p) k) with
  | none => exact .inl hown
  | some x =>
    obtain ⟨i', b⟩ := x
    obtain ⟨ps', k', hi', hk', rfl, hR⟩ := hinv.owner _ _ _ hown
    obtain ⟨rfl, rfl⟩ := hlife i' ps' hi'
    refine .inr (.inl ?_)
    rw [hown, ← hnumber k (by rw [hk]; rfl), hR, hnumber k' hk']

end

theorem not_isolated {codec : Codec UInt8} {d : Nat} {l : Link} {a : Arrival}
    {shards : List (Option Bytes)} (hp : l.passed a = some shards)
    (hs : ∀ ps ∈ l.lives, ∀ B, ¬ ShardsOf codec d ps B shards) :
    ¬ Isolated codec d l (.read a) := by
  intro h
  unfold Link.passed at hp
  split at hp
  · rename_i pkt hch hpkt
    cases harg : l.client.decoder.reconstructArg pkt with
    | error e => rw [harg] at hp; cases hp
    | ok arg =>
      rw [harg] at hp
      obtain rfl : arg = some shards := hp
      obtain ⟨ps, hps, B, hB⟩ := h hch pkt shards hpkt harg
      exact hs ps hps B hB
  · cases hp

theorem take_padTo (m : Nat) (t : Bytes) : (padTo m t).take t.length = t := by
  rw [padTo, List.take_left]

/-- A step of a possible event, if it does not panic. -/
def Link.next (l : Link) (e : Link.Event) : Option Link :=
  if l.Possible e then (l.step newRs21 2 1 e).toOption else none

theorem next_step {l l' : Link} {e : Link.Event} (h : l.next e = some l') :
    l.Possible e ∧ l.step newRs21 2 1 e = .ok l' := by
  unfold Link.next at h
  split at h
  · rename_i hposs
    exact ⟨hposs, ok_of_toOption h⟩
  · cases h

theorem lives_read {rs : Nat → Nat → Option (Codec UInt8)} {d p : Nat} {l l' : Link} {a : Arrival}
    (h : l.step rs d p (.read a) = .ok l') : l'.lives = l.lives := by
  obtain ⟨r, -, h⟩ := bind_ok h
  cases h
  rfl

/-- The first data packet of one `Fec` with the parity packet of the next are of no block. -/
theorem not_shardsOf : ∀ ps ∈ ([[[2], [4]], [[7], [8]]] : List (List Bytes)), ∀ B,
    ¬ ShardsOf rs21 2 ps B [some [3, 0, 7], none, some [3, 0, 14]] := by
  intro ps hps B h
  obtain ⟨t0, m0, ht0, he0⟩ := h 0 [3, 0, 7] rfl
  obtain ⟨t2, m2, ht2, he2⟩ := h 2 [3, 0, 14] rfl
  have hpre0 := take_padTo m0 t0
  have hpre2 := take_padTo m2 t2
  rw [← he0] at hpre0
  rw [← he2] at hpre2
  have hlen : ps.length = 2 := by
    rcases List.mem_cons.1 hps with rfl | hps
    · rfl
    · rw [List.mem_singleton.1 hps]
      rfl
  cases B with
  | succ B =>
    have hnil : blockOf 2 (B + 1) ps = [] := by
      rw [blockOf, List.drop_eq_nil_of_le (by omega), List.take_nil]
    rw [hnil] at ht0
    cases ht0
  | zero =>
    rcases List.mem_cons.1 hps with rfl | hps
    · -- the shard of `[2]` is not that of `[7]`
      have : blockShard rs21 2 (blockOf 2 0 [[2], [4]]) 0 = some [3, 0, 2] := by decide +kernel
      rw [this, Option.some.injEq] at ht0
      subst ht0
      exact absurd hpre0 (by decide)
    · obtain rfl := List.mem_singleton.1 hps
      have : blockShard rs21 2 (blockOf 2 0 [[7], [8]]) 2 = some [3, 0, 25] := by decide +kernel
      rw [this, Option.some.injEq] at ht2
      subst ht2
      exact absurd hpre2 (by decide)

/-- **Shards of two lives are combined.** The client holds the first data packet of a block when the
server's `FakeConn` is renewed; the parity packet of the new `Fec`'s first block completes it to a
payload that was never sent. -/
theorem stale_mixed :
    ∃ l l' e, Reach (Link.Start newRs21 2 1)
        (fun l e l' => l.Possible e ∧ l.step newRs21 2 1 e = .ok l') l ∧
      l.Possible e ∧ l.step newRs21 2 1 e = .ok l' ∧ ¬ Isolated rs21 2 l e ∧
      ∃ b ∈ l'.got, ∀ ps ∈ l'.lives, b ∉ ps := by
  have hrun : ((newFec newRs21 2 1 0).bind fun fec =>
      (exec Link.next [.write [7], .write [8], .read ⟨[0, 0, 0, 0, 0xf1, 0, 3, 0, 7], .new⟩, .renew,
        .write [2], .write [4]] (Link.new fec fun _ => false)).bind fun l =>
      (l.next (.read ⟨[2, 0, 0, 0, 0xf2, 0, 3, 0, 14], .new⟩)).bind fun l' =>
      some (l.passed ⟨[2, 0, 0, 0, 0xf2, 0, 3, 0, 14], .new⟩, l'.got, l'.lives)) =
      some (some [some [3, 0, 7], none, some [3, 0, 14]], [[7], [0x8d]],
        [[[2], [4]], [[7], [8]]]) := by decide +kernel
  obtain ⟨fec, hnew, hrun⟩ := Option.bind_eq_some_iff.1 hrun
  obtain ⟨l, hl, hrun⟩ := Option.bind_eq_some_iff.1 hrun
  obtain ⟨l', hl', hrun⟩ := Option.bind_eq_some_iff.1 hrun
  simp only [Option.some.injEq, Prod.mk.injEq] at hrun
  obtain ⟨hpassed, hgot, hlives⟩ := hrun
  obtain ⟨hposs, hstep⟩ := next_step hl'
  have hstart : Link.Start newRs21 2 1 (Link.new fec fun _ => false) := ⟨fec, _, hnew, rfl⟩
  have hreach : Reach (Link.Start newRs21 2 1)
      (fun l e l' => l.Possible e ∧ l.step newRs21 2 1 e = .ok l') l :=
    Reach.exec (fun l e l' h => next_step (l := l) (e := e) h) (.init hstart) hl
  refine ⟨l, l', _, hreach, hposs, hstep,
    not_isolated hpassed (by rw [← lives_read hstep, hlives]; exact not_shardsOf), [0x8d], ?_, ?_⟩
  · rw [hgot]
    decide
  · rw [hlives]
    decide

end Faketcp
