import Mathlib.Tactic.Ring
import TcpRaw.Fec.Proof.Order
import TcpRaw.Fec.Proof.Integrity

/-!
# The receive queue on a stream

On arrivals from a stream of fewer than `2 ^ 31` packets a sequence id is a packet's position
(`placed_seq`), so the queue `rx` is in strict order of the ids, and a call gathers all packets of
the block (`gathered_filter`).

`Queue` is what holds between calls. `queue_step`: a block with `d` packets in the queue is freed at
once and as a whole, so every block has fewer than `d` packets there; `payload_cases`: each of its
payloads has its data packet among those freed, or is restored. Three blocks cannot fill `rx`, so
the eviction takes a packet of an older block (`limited_keeps`).
-/

namespace Faketcp

open GoRt Erasure Keyed

/-- The sequence id as a number. -/
def FecPacket.seq (q : FecPacket) : Nat := q.seqid.toNat

/-! ## The queue in order -/

theorem itimediff_pos_iff_lt {s t : UInt32} (hs : s.toNat < 2 ^ 31) (ht : t.toNat < 2 ^ 31) :
    0 < itimediff s t ↔ t.toNat < s.toNat := by
  rw [itimediff_pos, UInt32.toNat_sub]
  omega

/-- The packets of a stream of fewer than `2 ^ 31` packets are at the positions of their ids. -/
theorem compared_seq : Compared FecPacket.seq fun q => q.seq < 2 ^ 31 :=
  ⟨itimediff_pos_iff_lt, fun _ _ h => UInt32.toNat_inj.1 h⟩

theorem placed_seq {n : Nat} (h0 : 0 < n) (hn : n ≤ 256) :
    Placed n FecPacket.seq fun q => q.seq < 2 ^ 31 where
  toCompared := compared_seq
  mod := fun {q} _ => by
    rw [UInt32.toNat_mod, UInt32.toNat_ofNat', Nat.mod_eq_of_lt (a := n) (by omega), FecPacket.seq]
  inBlock := inBlock_iff_div h0 hn

theorem pastBlock_iff {n : Nat} (h0 : 0 < n) (hn : n ≤ 256) {s t : UInt32}
    (hs : n * (s.toNat / n) + n ≤ 2 ^ 31) (ht : t.toNat < 2 ^ 31) :
    PastBlock (UInt32.ofNat n) s t ↔ s.toNat / n < t.toNat / n := by
  have htn := UInt32.toNat_ofNat_of_lt' (Nat.lt_of_le_of_lt hn (by decide : 256 < UInt32.size))
  have hend : (shardEnd (UInt32.ofNat n) s).toNat = n * (s.toNat / n) + n - 1 := by
    rw [shardEnd, UInt32.toNat_sub_of_le, UInt32.toNat_add, toNat_shardBegin hn, htn,
      UInt32.toNat_one]
    · omega
    · rw [UInt32.le_iff_toNat_le, UInt32.toNat_add, toNat_shardBegin hn, htn, UInt32.toNat_one]
      omega
  rw [PastBlock, itimediff_pos, UInt32.toNat_sub, hend, lt_div_iff_bounds h0]
  omega

/-! ## What a call gathers -/

section
variable {codec : Codec UInt8} {d p : Nat} {dec : FecDecoder} {i : Nat} {pkt : FecPacket}
  {ts : List FecPacket} {a : Assembly}

theorem gathered_filter (hdec : DecAt codec d p dec) (hd : d + p ≤ 256)
    (ho : Ordered FecPacket.seq dec.rx) (hlt : ∀ q ∈ dec.rx, q.seq < 2 ^ 31)
    (hp : pkt.seq < 2 ^ 31) (hfull : (d + p) * (pkt.seq / (d + p)) + (d + p) ≤ 2 ^ 31)
    (hsc : ScanAt dec.rx pkt.seqid i)
    (hG : Gathered dec pkt.seqid i (insertAt dec.rx i pkt) ts a) :
    ts = (insertAt dec.rx i pkt).filter (fun q => q.seq / (d + p) = pkt.seq / (d + p)) := by
  have h0 : 0 < d + p := by
    have := hdec.sane.shardSize_pos
    rwa [hdec.shardSize] at this
  have hins : ∀ q ∈ insertAt dec.rx i pkt, q.seq < 2 ^ 31 := fun q hq => by
    rcases mem_insertAt.1 hq with rfl | hq
    · exact hp
    · exact hlt q hq
  exact ((placed_seq h0 hd).gathered h0 hdec.shardSize (compared_seq.ordered_insertAt ho hlt hp hsc)
    hins (getElem?_insertAt hsc.le) (fun q hq => pastBlock_iff h0 hd hfull (hins q hq)) hG).1

end

/-! ## The queue between calls -/

/-- The queue between calls: in order, of the stream, and fewer than `d` packets of each block. -/
structure Queue (codec : Codec UInt8) (d p : Nat) (ps : List Bytes) (rx : List FecPacket) :
    Prop where
  ordered : Ordered FecPacket.seq rx
  ofStream : ∀ q ∈ rx, OfStream codec d p ps q
  few : ∀ b, rx.countP (fun q => q.seq / (d + p) = b) < d

section
variable {codec : Codec UInt8} {d p : Nat} {ps : List Bytes} {dec : FecDecoder} {i : Nat}
  {pkt : FecPacket} {rx ts : List FecPacket} {a : Assembly}

theorem Queue.sublist (h : Queue codec d p ps rx) {rx' : List FecPacket} (hs : rx'.Sublist rx) :
    Queue codec d p ps rx' :=
  ⟨h.ordered.sublist hs, fun q hq => h.ofStream q (hs.mem hq),
    fun b => Nat.lt_of_le_of_lt hs.countP_le (h.few b)⟩

theorem Queue.inOrder (h : Queue codec d p ps rx) :
    InOrder (d + p) d FecPacket.seq (OfStream codec d p ps) rx :=
  ⟨h.ordered, h.ofStream, h.few⟩

theorem Queue.ofInOrder (h : InOrder (d + p) d FecPacket.seq (OfStream codec d p ps) rx) :
    Queue codec d p ps rx :=
  ⟨h.ordered, h.placed, h.few⟩

theorem countP_lt_of_short (h0 : 0 < d) {b : Nat} (hb : (blockOf d b ps).length < d)
    (ho : Ordered FecPacket.seq rx) (hs : ∀ q ∈ rx, ∃ s,
      blockShard codec d (blockOf d (q.seq / (d + p)) ps) (q.seq % (d + p)) = some s) :
    rx.countP (fun q => q.seq / (d + p) = b) < d := by
  have hk : ∀ q ∈ rx.filter (fun q => q.seq / (d + p) = b),
      (d + p) * b ≤ q.seq ∧ q.seq < (d + p) * b + (blockOf d b ps).length := by
    intro q hq
    obtain ⟨hmem, hqb⟩ := List.mem_filter.1 hq
    obtain rfl : q.seq / (d + p) = b := by simpa using hqb
    have hdm := Nat.div_add_mod q.seq (d + p)
    obtain ⟨s, hshard⟩ := hs q hmem
    refine ⟨by omega, ?_⟩
    unfold blockShard at hshard
    split at hshard
    · obtain ⟨x, hx, -⟩ := Option.map_eq_some_iff.1 hshard
      have := (List.getElem?_eq_some_iff.1 hx).1
      omega
    · rw [if_neg (by omega)] at hshard
      cases hshard
  have := (ho.sublist List.filter_sublist).length_le hk
  rw [List.countP_eq_length_filter]
  omega

theorem block_end_le (h0 : 0 < d) (hcount : streamLength d p ps.length < 2 ^ 31) {b : Nat}
    (hb : (blockOf d b ps).length = d) : (d + p) * b + (d + p) ≤ 2 ^ 31 := by
  rw [blockOf, List.length_take, List.length_drop] at hb
  have hq : b + 1 ≤ ps.length / d := by
    rw [Nat.le_div_iff_mul_le h0, Nat.add_one_mul, Nat.mul_comm b]
    omega
  have hmul : (b + 1) * p ≤ ps.length / d * p := Nat.mul_le_mul_right p hq
  have hpd : (d + p) * b + (d + p) = d * b + d + (b + 1) * p := by ring
  unfold streamLength at hcount
  omega

theorem Queue.ofStream_insertAt (hq : Queue codec d p ps dec.rx)
    (hpkt : OfStream codec d p ps pkt) :
    ∀ q ∈ insertAt dec.rx i pkt, OfStream codec d p ps q :=
  hq.inOrder.placed_insertAt hpkt

/-- The packets that the scan gathers are of the block of the inserted one. -/
theorem gathered_div (hdec : DecAt codec d p dec) (h0 : 0 < d) (hd : d + p ≤ 256)
    (hlt : ∀ q ∈ rx, q.seq < 2 ^ 31) (hp : pkt.seq < 2 ^ 31)
    (hG : Gathered dec pkt.seqid i rx ts a) : ∀ q ∈ ts, q.seq / (d + p) = pkt.seq / (d + p) := by
  intro q h
  obtain ⟨hmem, hb⟩ := hG.mem h
  rw [hdec.shardSize] at hb
  exact (inBlock_iff_div (by omega) hd hp (hlt q hmem)).1 hb

theorem Queue.gathered_div (hq : Queue codec d p ps dec.rx) (hdec : DecAt codec d p dec)
    (h0 : 0 < d) (hd : d + p ≤ 256) (hpkt : OfStream codec d p ps pkt)
    (hG : Gathered dec pkt.seqid i (insertAt dec.rx i pkt) ts a) :
    ∀ q ∈ ts, q.seq / (d + p) = pkt.seq / (d + p) :=
  Faketcp.gathered_div hdec h0 hd (fun q hm => (hq.ofStream_insertAt hpkt q hm).lt) hpkt.lt hG

/-- **The queue after a packet is inserted**: a block that reaches `d` packets is freed as a
whole. -/
theorem queue_step (hdec : DecAt codec d p dec) (h0 : 0 < d) (hd : d + p ≤ 256)
    (hcount : streamLength d p ps.length < 2 ^ 31) (hq : Queue codec d p ps dec.rx)
    (hpkt : OfStream codec d p ps pkt) (hsc : ScanAt dec.rx pkt.seqid i)
    (hG : Gathered dec pkt.seqid i (insertAt dec.rx i pkt) ts a) :
    Queue codec d p ps (dec.outcome a (insertAt dec.rx i pkt)).2 ∧
      ((dec.outcome a (insertAt dec.rx i pkt)).2 = insertAt dec.rx i pkt ∨
        d ≤ ts.length ∧ (blockOf d (pkt.seq / (d + p)) ps).length = d ∧
          ∀ q, q ∈ (dec.outcome a (insertAt dec.rx i pkt)).2 ↔
            q ∈ insertAt dec.rx i pkt ∧ q.seq / (d + p) ≠ pkt.seq / (d + p)) := by
  have hlt : ∀ q, OfStream codec d p ps q → q.seq < 2 ^ 31 := fun q h => h.lt
  have hpl := (placed_seq (by omega) hd).mono hlt
  by_cases hfull : (blockOf d (pkt.seq / (d + p)) ps).length = d
  · obtain ⟨hnext, hrest⟩ := hpl.step (by omega) h0 hdec.shardSize hdec.dataShards hq.inOrder hpkt
      (fun q h => pastBlock_iff (by omega) hd (block_end_le h0 hcount hfull) (hlt q h)) hsc hG
    refine ⟨.ofInOrder hnext, ?_⟩
    rw [hrest]
    split
    · rename_i hts
      exact .inr ⟨hts, hfull, fun q => by rw [List.mem_filter, decide_eq_true_eq]⟩
    · exact .inl rfl
  · have ho := hpl.ordered_insertAt hq.ordered hq.ofStream hpkt hsc
    have hof := hq.ofStream_insertAt hpkt (i := i)
    have hshort : (blockOf d (pkt.seq / (d + p)) ps).length < d :=
      Nat.lt_of_le_of_ne (length_blockOf_le _ _ _) hfull
    have hfew := countP_lt_of_short h0 hshort ho fun q hq => ⟨_, (hof q hq).fromBlock.shard⟩
    have hts : ts.length < d := by
      have hall : ts.countP (fun q => q.seq / (d + p) = pkt.seq / (d + p)) = ts.length :=
        List.countP_eq_length.2 fun q h => by simpa using hq.gathered_div hdec h0 hd hpkt hG q h
      rw [← hall]
      exact Nat.lt_of_le_of_lt hG.sublist.countP_le hfew
    rw [outcome_snd hG, hdec.dataShards, if_neg (by omega)]
    exact ⟨.ofInOrder (.insert hpl.toCompared hq.inOrder hpkt hsc hfew), .inl rfl⟩

/-- The eviction does not touch block `B` while only blocks before `B + 3` are in the queue. -/
theorem limited_keeps (hlim : dec.rxlimit = 3 * (d + p)) {B : Nat} (hq : Queue codec d p ps rx)
    (hearly : ∀ q ∈ rx, q.seq / (d + p) < B + 3) {q : FecPacket} (hmem : q ∈ rx)
    (hB : q.seq / (d + p) = B) : q ∈ dec.limited rx := by
  unfold FecDecoder.limited
  split
  · rename_i hlen
    cases rx with
    | nil => cases hmem
    | cons x rx =>
      rcases List.mem_cons.1 hmem with rfl | hmem
      · -- the oldest packet is of block `B`: all are of blocks `B` to `B + 2`, and too few
        have hclass := length_le_of_classes (c := fun q : FecPacket => q.seq / (d + p)) (B := B)
          (e := d - 1) (fun b => Nat.le_sub_one_of_lt (hq.few b)) 3 fun q' hq' => by
            refine ⟨?_, hearly q' hq'⟩
            rw [← hB]
            rcases List.mem_cons.1 hq' with rfl | hq'
            · exact Nat.le_refl _
            · exact Nat.div_le_div_right (Nat.le_of_lt ((List.pairwise_cons.1 hq.ordered).1 q' hq'))
        omega
      · exact hmem
  · exact hmem

theorem limited_filter (hlim : dec.rxlimit = 3 * (d + p)) {B : Nat} (hq : Queue codec d p ps rx)
    (hearly : ∀ q ∈ rx, q.seq / (d + p) < B + 3) :
    (dec.limited rx).filter (fun q => q.seq / (d + p) = B) =
      rx.filter (fun q => q.seq / (d + p) = B) := by
  have hkeep := fun q hmem hB => limited_keeps (q := q) hlim hq hearly hmem hB
  unfold FecDecoder.limited at hkeep ⊢
  by_cases hlen : dec.rxlimit < rx.length
  · rw [if_pos hlen] at hkeep ⊢
    cases rx with
    | nil => rfl
    | cons x rx =>
      have hx : ¬ x.seq / (d + p) = B := fun hB =>
        Nat.lt_irrefl _ ((List.pairwise_cons.1 hq.ordered).1 x (hkeep x (by simp) hB))
      rw [List.tail_cons, List.filter_cons_of_neg (by simpa using hx)]
  · rw [if_neg hlen]

/-! ## A completed block -/

/-- A block of which too few packets were gathered restores nothing. -/
theorem restored_few {s : UInt32} (hG : Gathered dec s i rx ts a) (h : ts.length < d)
    (blk : List Bytes) : restored d a blk = [] := by
  have hle := numDataShard_le hG.asm
  rw [restored, if_neg (by omega), if_neg fun h' => by rw [hG.asm.numshard] at h'; omega]

theorem Gathered.flag_iff (hdec : DecAt codec d p dec) (hG : Gathered dec pkt.seqid i rx ts a)
    {k : Nat} (hk : k < d + p) :
    a.shardsflag[k]?.getD false = true ↔ ∃ q ∈ ts, q.seq % (d + p) = k := by
  rw [hG.asm.flag k (by rw [hdec.shardSize]; exact hk), Option.getD_some]
  constructor
  · intro h
    obtain ⟨s, hs⟩ := Option.isSome_iff_exists.1 h
    obtain ⟨q, hq, hqk, -⟩ := hG.asm.of_shard k s (Option.join_eq_some_iff.1 hs)
    rw [hdec.toNat_mod] at hqk
    exact ⟨q, hq, hqk⟩
  · rintro ⟨q, hq, rfl⟩
    obtain ⟨s, hs⟩ := hG.asm.shard_of q hq
    rw [hdec.toNat_mod] at hs
    rw [FecPacket.seq, hs]
    rfl

theorem nodup_positions (ho : Ordered FecPacket.seq ts) {B : Nat}
    (hin : ∀ q ∈ ts, q.seq / (d + p) = B) : (ts.map fun q => q.seq % (d + p)).Nodup := by
  refine List.Nodup.map_on (fun q hq q' hq' h => ho.inj hq hq' ?_) ?_
  · rw [← Nat.div_add_mod q.seq (d + p), ← Nat.div_add_mod q'.seq (d + p), hin q hq, hin q' hq', h]
  · exact List.Pairwise.imp (fun h => by rintro rfl; exact Nat.lt_irrefl _ h) ho

theorem length_le_present (hdec : DecAt codec d p dec) (ho : Ordered FecPacket.seq ts) {B : Nat}
    (hin : ∀ q ∈ ts, q.seq / (d + p) = B) (hG : Gathered dec pkt.seqid i rx ts a) :
    ts.length ≤ present a.padded := by
  have := length_le_countP (p := Option.isSome) (l := a.padded) (nodup_positions ho hin)
    fun j hj => by
      obtain ⟨q, hq, rfl⟩ := List.mem_map.1 hj
      obtain ⟨s, hs⟩ := hG.asm.shard_of q hq
      rw [hdec.toNat_mod] at hs
      exact ⟨some (padTo a.maxlen s.data), by rw [getElem?_padded]; exact congrArg _ hs, rfl⟩
  rwa [List.length_map] at this

/-- **A completed block**: every payload whose data packet was not gathered is restored. -/
theorem restored_full (hdec : DecAt codec d p dec) (ho : Ordered FecPacket.seq ts)
    (hflag : ∀ q ∈ ts, q.flag = flagOf d (q.seqid.toNat % (d + p))) (hfull : d ≤ ts.length)
    {B : Nat} (hin : ∀ q ∈ ts, q.seq / (d + p) = B) (hG : Gathered dec pkt.seqid i rx ts a)
    (blk : List Bytes) :
    restored d a blk = lost d a.shardsflag blk := by
  by_cases hdata : a.numDataShard = d
  · -- `d` data packets are all of the block
    rw [restored, if_pos hdata, lost]
    refine (List.filterMap_eq_nil_iff.2 fun k hk => if_pos ?_).symm
    have hk : k < d := List.mem_range.1 hk
    rw [hG.flag_iff hdec (by omega)]
    by_contra hex
    push Not at hex
    rw [hG.asm.numDataShard, List.countP_eq_length_filter] at hdata
    have hlo : ∀ q ∈ ts.filter (fun q => q.flag = typeData),
        (d + p) * B ≤ q.seq ∧ q.seq < (d + p) * B + d := by
      intro q hq
      obtain ⟨hmem, hf⟩ := List.mem_filter.1 hq
      have hf' := hflag q hmem
      have hs := Nat.div_add_mod q.seq (d + p)
      rw [hin q hmem] at hs
      have : q.seqid.toNat % (d + p) < d := by
        by_contra hge
        rw [flagOf, if_neg hge] at hf'
        rw [decide_eq_true_eq, hf'] at hf
        exact absurd hf (by decide)
      unfold FecPacket.seq at *
      omega
    have := (ho.sublist List.filter_sublist).length_lt hlo
      (show (d + p) * B ≤ (d + p) * B + k by omega) (by omega) fun q hq hqk => by
        refine hex q (List.mem_filter.1 hq).1 ?_
        rw [hqk, Nat.mul_add_mod, Nat.mod_eq_of_lt (by omega)]
    omega
  · rw [restored, if_neg hdata, if_pos ⟨by rw [hG.asm.numshard]; exact hfull,
      Nat.le_trans hfull (length_le_present hdec ho hin hG)⟩]

/-- **Each payload of a completed block** has its data packet among those gathered, or is
restored. -/
theorem payload_cases (hdec : DecAt codec d p dec) (ho : Ordered FecPacket.seq ts)
    (hof : ∀ q ∈ ts, OfStream codec d p ps q) (hfull : d ≤ ts.length)
    (hin : ∀ q ∈ ts, q.seq / (d + p) = pkt.seq / (d + p))
    (hG : Gathered dec pkt.seqid i rx ts a) {k : Nat} (hk : k < d) {b : Bytes}
    (hb : (blockOf d (pkt.seq / (d + p)) ps)[k]? = some b) :
    (∃ q ∈ ts, q.seq = (d + p) * (pkt.seq / (d + p)) + k) ∨
      b ∈ restored d a (blockOf d (pkt.seq / (d + p)) ps) := by
  rw [restored_full hdec ho (fun q hq => (hof q hq).fromBlock.flag) hfull hin hG, mem_lost]
  by_cases hflag : a.shardsflag[k]?.getD false = true
  · obtain ⟨q, hq, hqk⟩ := (hG.flag_iff hdec (by omega)).1 hflag
    exact .inl ⟨q, hq, by rw [← hqk, ← hin q hq, Nat.div_add_mod]⟩
  · exact .inr ⟨k, hk, by simpa using hflag, hb⟩

end

end Faketcp
