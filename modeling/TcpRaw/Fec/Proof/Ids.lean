import TcpRaw.Fec.Proof.Drain
import TcpRaw.Lib.BlockSet

/-!
# The decoder on a stream collects sequence ids

On arrivals from one stream a packet is known by its sequence id, so the queue is a set of numbers
(`ids`), and the decoder is a block set of at most `3 * (d + p)` of them. `collect_step`: a packet
returns what the block set returns, its payload and then the restored ones, and leaves the ids that
the set is left with. `drain_run`: all that `DecodeData` returns for arrivals is a run of the block
set.
-/

namespace Faketcp

open GoRt Erasure Keyed BlockSet

/-- The sequence ids in the queue. -/
def ids (rx : List FecPacket) : Finset Nat := (rx.map FecPacket.seq).toFinset

/-- What packet `k` carries itself. -/
def ownPayload (d p : Nat) (ps : List Bytes) (k : Nat) : List Bytes :=
  (streamPayload d p ps k).toList

/-- The payloads of block `B` that are restored when the packets `s` of it are there. -/
def restoredBy (d p : Nat) (ps : List Bytes) (B : Nat) (s : Finset Nat) : List Bytes :=
  if blockLen (blockOf d B ps) ≤ 2 then []
  else (List.range d).filterMap fun j => if (d + p) * B + j ∈ s then none else (blockOf d B ps)[j]?

/-- The ids after packet `k`. -/
def receiveId (d p : Nat) : Finset Nat → Nat → Finset Nat := receive d (d + p) (3 * (d + p))

/-- All that the packets `ks` return. -/
def deliver (d p : Nat) (ps : List Bytes) : Finset Nat → List Nat → List Bytes :=
  run d (d + p) (3 * (d + p)) (ownPayload d p ps) (restoredBy d p ps)

/-! ## Queues and their ids -/

section
variable {rx : List FecPacket} {pkt : FecPacket} {i k : Nat}

theorem mem_ids : k ∈ ids rx ↔ ∃ q ∈ rx, q.seq = k := by
  rw [ids, List.mem_toFinset, List.mem_map]

theorem card_ids (ho : Ordered FecPacket.seq rx) : (ids rx).card = rx.length := by
  rw [ids, List.toFinset_card_of_nodup, List.length_map]
  exact List.pairwise_map.2 (List.Pairwise.imp Nat.ne_of_lt ho)

theorem ids_insertAt : ids (insertAt rx i pkt) = insert pkt.seq (ids rx) := by
  ext k
  rw [Finset.mem_insert, mem_ids, mem_ids]
  constructor
  · rintro ⟨q, hq, rfl⟩
    rcases mem_insertAt.1 hq with rfl | hq
    · exact .inl rfl
    · exact .inr ⟨q, hq, rfl⟩
  · rintro (rfl | ⟨q, hq, rfl⟩)
    · exact ⟨pkt, mem_insertAt.2 (.inl rfl), rfl⟩
    · exact ⟨q, mem_insertAt.2 (.inr hq), rfl⟩

theorem ids_filter (P : Nat → Prop) [DecidablePred P] :
    ids (rx.filter fun q => P q.seq) = (ids rx).filter P := by
  ext k
  rw [mem_ids, Finset.mem_filter, mem_ids]
  constructor
  · rintro ⟨q, hq, rfl⟩
    obtain ⟨hq, hP⟩ := List.mem_filter.1 hq
    exact ⟨⟨q, hq, rfl⟩, of_decide_eq_true hP⟩
  · rintro ⟨⟨q, hq, rfl⟩, hP⟩
    exact ⟨q, List.mem_filter.2 ⟨hq, decide_eq_true hP⟩, rfl⟩

/-- The head of an ordered queue is its smallest id. -/
theorem ids_limited (dec : FecDecoder) (ho : Ordered FecPacket.seq rx) :
    ids (dec.limited rx) = evict dec.rxlimit (ids rx) := by
  unfold FecDecoder.limited evict
  rw [card_ids ho]
  split
  · cases rx with
    | nil => rfl
    | cons x rx =>
      obtain ⟨hx, hrest⟩ := List.pairwise_cons.1 ho
      ext k
      rw [List.tail_cons, Finset.mem_filter, mem_ids, mem_ids]
      constructor
      · rintro ⟨q, hq, rfl⟩
        exact ⟨⟨q, List.mem_cons_of_mem _ hq, rfl⟩, x.seq,
          mem_ids.2 ⟨x, List.mem_cons_self, rfl⟩, hx q hq⟩
      · rintro ⟨⟨q, hq, rfl⟩, j, hj, hlt⟩
        rcases List.mem_cons.1 hq with rfl | hq
        · obtain ⟨r, hr, rfl⟩ := mem_ids.1 hj
          rcases List.mem_cons.1 hr with rfl | hr
          · exact absurd hlt (Nat.lt_irrefl _)
          · exact absurd hlt (Nat.lt_asymm (hx r hr))
        · exact ⟨q, hq, rfl⟩
  · rfl

end

/-! ## One packet -/

section
variable {codec : Codec UInt8} {d p : Nat} {ps : List Bytes} {fec fec' : Fec} {pkt : FecPacket}
  {i : Nat} {ts : List FecPacket} {asm : Assembly}

theorem card_filter_ids {rx : List FecPacket} (ho : Ordered FecPacket.seq rx) (b : Nat) :
    ((ids rx).filter (· / (d + p) = b)).card = rx.countP fun q => q.seq / (d + p) = b := by
  rw [← ids_filter, card_ids (ho.sublist List.filter_sublist), List.countP_eq_length_filter]

theorem mates_ids (ho : Ordered FecPacket.seq (insertAt fec.decoder.rx i pkt)) :
    (mates (d + p) (ids fec.decoder.rx) pkt.seq).card =
      (insertAt fec.decoder.rx i pkt).countP fun q => q.seq / (d + p) = pkt.seq / (d + p) := by
  rw [mates, ← ids_insertAt (i := i), card_filter_ids ho]

/-- The gathered packets of a full block are all that are there. -/
theorem ids_gathered (h0 : 0 < d) (hd : d + p ≤ 256) (hcount : streamLength d p ps.length < 2 ^ 31)
    (h : Aligned codec d p ps fec) (hpkt : OfStream codec d p ps pkt)
    (hfull : (blockOf d (pkt.seq / (d + p)) ps).length = d)
    (hI : Inserted d (blockOf d (pkt.seq / (d + p)) ps) fec fec' pkt i ts asm) :
    Ordered FecPacket.seq ts ∧ ids ts = mates (d + p) (ids fec.decoder.rx) pkt.seq := by
  have hlt : ∀ q ∈ fec.decoder.rx, q.seq < 2 ^ 31 := fun q hq => (h.queue.ofStream q hq).lt
  have ho := compared_seq.ordered_insertAt h.queue.ordered hlt hpkt.lt hI.scan
  have hts := gathered_filter h.at_fec.dec hd h.queue.ordered hlt hpkt.lt
    (block_end_le h0 hcount hfull) hI.scan hI.gathered
  refine ⟨ho.sublist (hts ▸ List.filter_sublist), ?_⟩
  rw [hts, ids_filter (P := fun k => k / (d + p) = pkt.seq / (d + p)), ids_insertAt, mates]

/-- A block is completed when `d` of its ids are there; one that is not full never is. -/
theorem gathered_full_iff (h0 : 0 < d) (hd : d + p ≤ 256)
    (hcount : streamLength d p ps.length < 2 ^ 31) (h : Aligned codec d p ps fec)
    (hpkt : OfStream codec d p ps pkt)
    (hI : Inserted d (blockOf d (pkt.seq / (d + p)) ps) fec fec' pkt i ts asm) :
    (d ≤ ts.length ↔ d ≤ (mates (d + p) (ids fec.decoder.rx) pkt.seq).card) ∧
      (d ≤ ts.length → (blockOf d (pkt.seq / (d + p)) ps).length = d) := by
  by_cases hfull : (blockOf d (pkt.seq / (d + p)) ps).length = d
  · obtain ⟨ho, hids⟩ := ids_gathered h0 hd hcount h hpkt hfull hI
    exact ⟨by rw [← hids, card_ids ho], fun _ => hfull⟩
  · have hlt : ∀ q ∈ fec.decoder.rx, q.seq < 2 ^ 31 := fun q hq => (h.queue.ofStream q hq).lt
    have ho := compared_seq.ordered_insertAt h.queue.ordered hlt hpkt.lt hI.scan
    have hof := h.queue.ofStream_insertAt hpkt (i := i)
    have hshort := countP_lt_of_short (p := p) h0
      (Nat.lt_of_le_of_ne (length_blockOf_le _ _ _) hfull) ho
      fun q hq => ⟨_, (hof q hq).fromBlock.shard⟩
    have hts : ts.length < d := by
      have hall : ts.countP (fun q => q.seq / (d + p) = pkt.seq / (d + p)) = ts.length :=
        List.countP_eq_length.2 fun q hq => by
          simpa using h.queue.gathered_div h.at_fec.dec h0 hd hpkt hI.gathered q hq
      rw [← hall]
      exact Nat.lt_of_le_of_lt hI.gathered.sublist.countP_le hshort
    rw [mates_ids ho]
    exact ⟨by omega, by omega⟩

theorem dataCh_eq (h0 : 0 < d) (hd : d + p ≤ 256) (hcount : streamLength d p ps.length < 2 ^ 31)
    (h : Aligned codec d p ps fec) (hpkt : OfStream codec d p ps pkt)
    (hI : Inserted d (blockOf d (pkt.seq / (d + p)) ps) fec fec' pkt i ts asm) :
    fec'.dataCh = if d ≤ (mates (d + p) (ids fec.decoder.rx) pkt.seq).card
      then restoredBy d p ps (pkt.seq / (d + p)) (mates (d + p) (ids fec.decoder.rx) pkt.seq)
      else [] := by
  obtain ⟨hiff, hblk⟩ := gathered_full_iff h0 hd hcount h hpkt hI
  rw [hI.dataCh]
  by_cases hts : d ≤ ts.length
  · obtain ⟨ho, hids⟩ := ids_gathered h0 hd hcount h hpkt (hblk hts) hI
    have hof : ∀ q ∈ ts, OfStream codec d p ps q := fun q hq =>
      h.queue.ofStream_insertAt hpkt q (hI.gathered.mem hq).1
    have hin := h.queue.gathered_div h.at_fec.dec h0 hd hpkt hI.gathered
    rw [if_pos (hiff.1 hts), restoredBy, ← hids,
      restored_full h.at_fec.dec ho (fun q hq => (hof q hq).fromBlock.flag) hts hin hI.gathered]
    refine ite_congr rfl (fun _ => rfl) fun _ => List.filterMap_congr fun j hj => ?_
    have hj : j < d := List.mem_range.1 hj
    have hflag : (asm.shardsflag[j]?.getD false = true) ↔
        (d + p) * (pkt.seq / (d + p)) + j ∈ ids ts := by
      rw [hI.gathered.flag_iff h.at_fec.dec (by omega), mem_ids]
      refine exists_congr fun q => and_congr_right fun hq => ?_
      have hdm := Nat.div_add_mod q.seq (d + p)
      rw [hin q hq] at hdm
      omega
    exact if_congr hflag rfl rfl
  · rw [if_neg fun hm => hts (hiff.2 hm), restored_few hI.gathered (Nat.not_le.1 hts), ite_self]

theorem ids_inserted (h0 : 0 < d) (hd : d + p ≤ 256) (hcount : streamLength d p ps.length < 2 ^ 31)
    (h : Aligned codec d p ps fec) (hpkt : OfStream codec d p ps pkt)
    (hI : Inserted d (blockOf d (pkt.seq / (d + p)) ps) fec fec' pkt i ts asm) :
    ids fec'.decoder.rx =
      evict (3 * (d + p)) (settle d (d + p) (ids fec.decoder.rx) pkt.seq) := by
  obtain ⟨hq, hrest⟩ := queue_step h.at_fec.dec h0 hd hcount h.queue hpkt hI.scan hI.gathered
  obtain ⟨hiff, -⟩ := gathered_full_iff h0 hd hcount h hpkt hI
  rw [hI.decoder, FecDecoder.after, ids_limited _ hq.ordered, h.limit]
  refine congrArg _ ?_
  unfold settle
  by_cases hts : d ≤ ts.length
  · have hmates := hiff.1 hts
    rw [if_pos hmates, ← ids_insertAt (i := i)]
    rcases hrest with hsame | ⟨-, -, hfreed⟩
    · -- the queue would have kept `d` packets of the block
      have hfew := hq.few (pkt.seq / (d + p))
      rw [hsame, ← mates_ids (hsame ▸ hq.ordered)] at hfew
      omega
    · ext k
      rw [Finset.mem_filter, mem_ids, mem_ids]
      constructor
      · rintro ⟨q, hmem, rfl⟩
        exact ⟨⟨q, ((hfreed q).1 hmem).1, rfl⟩, ((hfreed q).1 hmem).2⟩
      · rintro ⟨⟨q, hmem, rfl⟩, hne⟩
        exact ⟨q, (hfreed q).2 ⟨hmem, hne⟩, rfl⟩
  · rw [if_neg fun hm => hts (hiff.2 hm), outcome_snd hI.gathered, h.at_fec.dec.dataShards,
      if_neg hts, ids_insertAt]

/-- **A packet of the stream decoded** is an item of the block set. -/
theorem collect_step (hlaw : codec.Lawful d p) (h0 : 0 < d) (hd : d + p ≤ 256)
    (hpay : ∀ b ∈ ps, b.length ≤ maxPayload) (hcount : streamLength d p ps.length < 2 ^ 31)
    (h : Aligned codec d p ps fec) {a : Arrival} {k : Nat} (hk : k < 2 ^ 31)
    (hx : streamPacket codec d p ps k = some a.data) :
    ∃ data fec', wireSeqid a.data = k ∧ fec.decode a = .ok (data, fec') ∧
      Aligned codec d p ps fec'.flush ∧
      data.toList ++ fec'.dataCh = returned d (d + p) (ownPayload d p ps) (restoredBy d p ps)
        (ids fec.decoder.rx) k ∧
      ids fec'.decoder.rx = receiveId d p (ids fec.decoder.rx) k := by
  obtain ⟨pkt, fec', rfl, hwire, hpkt, hdec, hal, hcase⟩ :=
    aligned_step hlaw h0 hd hpay hcount h hk hx
  refine ⟨_, fec', hwire, hdec, hal, ?_⟩
  rcases hcase with ⟨hheld, rfl⟩ | ⟨hnew, i, ts, asm, hI⟩
  · have hmem : pkt.seq ∈ ids fec'.decoder.rx := mem_ids.2 hheld
    rw [returned_of_mem _ _ hmem, receiveId, receive_of_mem hmem, h.drained, List.append_nil]
    exact ⟨rfl, rfl⟩
  · have hmem : pkt.seq ∉ ids fec.decoder.rx := fun hmem => by
      obtain ⟨q, hq, hseq⟩ := mem_ids.1 hmem
      exact hnew q hq hseq
    constructor
    · rw [dataCh_eq h0 hd hcount h hpkt hI, returned, ownPayload]
      simp only [hmem, not_false_eq_true, true_and]
    · rw [ids_inserted h0 hd hcount h hpkt hI, receiveId, receive, if_neg hmem]

/-- The sequence ids of arrivals. -/
def seqids (arrivals : List Arrival) : List Nat := arrivals.map fun a => wireSeqid a.data

/-- The ids that the arrivals leave in an empty queue. -/
def queuedAfter (d p : Nat) (arrivals : List Arrival) : Finset Nat :=
  (seqids arrivals).foldl (receiveId d p) ∅

theorem card_queuedAfter_le (d p : Nat) (arrivals : List Arrival) :
    (queuedAfter d p arrivals).card ≤ 3 * (d + p) :=
  List.foldlRecOn (seqids arrivals) (receiveId d p)
    (motive := fun s : Finset Nat => s.card ≤ 3 * (d + p)) (Nat.zero_le _)
    fun _ hs _ _ => card_receive_le hs

/-- **All that `DecodeData` returns for arrivals of the stream**, and the ids that are left. -/
theorem drain_run (hlaw : codec.Lawful d p) (h0 : 0 < d) (hd : d + p ≤ 256)
    (hpay : ∀ b ∈ ps, b.length ≤ maxPayload) (hcount : streamLength d p ps.length < 2 ^ 31)
    (arrivals : List Arrival) (h : Aligned codec d p ps fec)
    (harr : ∀ a ∈ arrivals, ∃ k < 2 ^ 31, streamPacket codec d p ps k = some a.data) :
    ∃ fec', fec.drain arrivals = .ok (deliver d p ps (ids fec.decoder.rx) (seqids arrivals), fec') ∧
      Aligned codec d p ps fec' ∧
      ids fec'.decoder.rx = (seqids arrivals).foldl (receiveId d p) (ids fec.decoder.rx) := by
  induction arrivals generalizing fec with
  | nil => exact ⟨fec, rfl, h, rfl⟩
  | cons a arrivals ih =>
    obtain ⟨k, hk, hx⟩ := harr a List.mem_cons_self
    obtain ⟨data, fec1, hwire, hdec, hal, hout, hids⟩ := collect_step hlaw h0 hd hpay hcount h hk hx
    obtain ⟨fec2, hrest, hal2, hids2⟩ := ih hal fun a' ha' => harr a' (List.mem_cons_of_mem _ ha')
    have hflush : ids fec1.flush.decoder.rx = receiveId d p (ids fec.decoder.rx) k := hids
    have hcons : seqids (a :: arrivals) = k :: seqids arrivals := by
      rw [seqids, List.map_cons, hwire, ← seqids]
    rw [hflush] at hrest hids2
    rw [hcons]
    refine ⟨fec2, ?_, hal2, hids2⟩
    rw [drain_decode _ (length_streamPacket_ne hx) hdec, hrest, deliver, run, ← hout]
    rfl

end

end Faketcp
