import Mathlib.Algebra.BigOperators.Group.Finset.Basic
import Mathlib.Algebra.Order.BigOperators.Group.Finset
import Mathlib.Data.List.Forall2
import TcpRaw.Fec.Proof.Drain
import TcpRaw.Fec.Proof.EncoderSpec

/-!
# How often a payload is delivered when packets are only lost

Packets arrive in the order they were sent, each at most once. Then the packets of a block arrive
together, at the end of the queue, and the decoder collects them in rounds (`Filling`): when `d` are
in the queue it restores what is missing among them and frees them, and every payload of the block
has been delivered once for that round (`delivered_perm`). The packets of the block that still
arrive open a new round. So a block of which `c` packets arrive is delivered `c / d` times
(`drain_block`), and each payload arrives exactly once if and only if fewer than `2 * d` packets of
each block arrive (`exactly_once_iff`); with fewer parity than data shards that is always so.
-/

namespace Faketcp

open GoRt Erasure Keyed

section
variable {codec : Codec UInt8} {d p : Nat} {ps : List Bytes}

/-! ## One round -/

/-- **A round delivers the block once**: the payloads of the gathered packets and the restored
ones. -/
theorem delivered_perm {dec : FecDecoder} {pkt : FecPacket} {i B : Nat} {rx ts : List FecPacket}
    {asm : Assembly} (hdec : DecAt codec d p dec) (ho : Ordered FecPacket.seq ts)
    (hof : ∀ q ∈ ts, OfStream codec d p ps q) (hfull : d ≤ ts.length)
    (hin : ∀ q ∈ ts, q.seq / (d + p) = B) (hG : Gathered dec pkt.seqid i rx ts asm)
    (hblk : (blockOf d B ps).length = d) :
    ((ts.map FecPacket.seq).filterMap (streamPayload d p ps) ++
      restored d asm (blockOf d B ps)).Perm (blockOf d B ps) := by
  have hread : (ts.map FecPacket.seq).filterMap (streamPayload d p ps) =
      ((ts.map fun q => q.seq % (d + p)).filter (· < d)).filterMap ((blockOf d B ps)[·]?) := by
    rw [List.filterMap_map, List.filterMap_filter, List.filterMap_map]
    refine List.filterMap_congr fun q hq => ?_
    simp only [Function.comp_apply, streamPayload, hin q hq, decide_eq_true_eq]
  rw [hread, restored_full hdec ho (fun q hq => (hof q hq).fromBlock.flag) hfull hin hG, lost]
  have hsplit := filterMap_split_perm (l := blockOf d B ps)
    (f := fun k => asm.shardsflag[k]?.getD false) ((nodup_positions ho hin).filter (· < d))
    fun k => by
      rw [List.mem_filter, List.mem_map, hblk, decide_eq_true_eq, and_comm]
      refine and_congr_right fun hk => ?_
      rw [hG.flag_iff hdec (by omega)]
  rwa [hblk] at hsplit

/-- Block `B` is being collected: `rounds` rounds are over, the packets `held` of the current one
are in the queue, behind those of earlier blocks, and the packets `todo` are still to come. -/
structure Filling (codec : Codec UInt8) (d p : Nat) (ps : List Bytes) (B : Nat) (fec : Fec)
    (rounds : Nat) (held todo : List Nat) (out : List Bytes) : Prop where
  aligned : Aligned codec d p ps fec
  queued : (fec.decoder.rx.filter (fun q => q.seq / (d + p) = B)).map FecPacket.seq = held
  early : ∀ q ∈ fec.decoder.rx, q.seq < (d + p) * B + (d + p)
  behind : ∀ q ∈ fec.decoder.rx, ∀ k ∈ todo, q.seq < k
  order : todo.Pairwise (· < ·)
  block : ∀ k ∈ todo, k / (d + p) = B
  later : ∀ k ∈ held, (d + p) * B + d * rounds ≤ k
  ahead : ∀ k ∈ todo, (d + p) * B + (d * rounds + held.length) ≤ k
  delivered : out.Perm ((List.replicate rounds (blockOf d B ps)).flatten ++
    held.filterMap (streamPayload d p ps))

theorem Filling.length_held {B : Nat} {fec : Fec} {rounds : Nat} {held todo : List Nat}
    {out : List Bytes} (h : Filling codec d p ps B fec rounds held todo out) : held.length < d := by
  have := h.aligned.queue.few B
  rwa [List.countP_eq_length_filter, ← List.length_map (f := FecPacket.seq), h.queued] at this

theorem insertAt_behind {rx : List FecPacket} {pkt : FecPacket} {i : Nat}
    (ho : Ordered FecPacket.seq rx) (hlt : ∀ q ∈ rx, q.seq < 2 ^ 31) (hp : pkt.seq < 2 ^ 31)
    (hsc : ScanAt rx pkt.seqid i) (hbehind : ∀ q ∈ rx, q.seq < pkt.seq) :
    insertAt rx i pkt = rx ++ [pkt] := by
  have hnil : rx.drop i = [] := List.eq_nil_iff_forall_not_mem.2 fun q hq =>
    Nat.lt_asymm ((compared_seq.scan_ordered ho hlt hp hsc).2 q hq)
      (hbehind q (List.mem_of_mem_drop hq))
  have htake : rx.take i = rx := by
    have := List.take_append_drop i rx
    rwa [hnil, List.append_nil] at this
  rw [insertAt, hnil, htake]

/-- Packet `k` of the block came to the end of the queue, where it was gathered with the packets of
its round. -/
structure Landed (codec : Codec UInt8) (d p : Nat) (ps : List Bytes) (B : Nat) (dec : FecDecoder)
    (held todo : List Nat) (k : Nat) (pkt : FecPacket) (i : Nat) (ts : List FecPacket) : Prop where
  seq : pkt.seq = k
  ofStream : OfStream codec d p ps pkt
  mates : ts = (insertAt dec.rx i pkt).filter (fun q => q.seq / (d + p) = B)
  seqs : ts.map FecPacket.seq = held ++ [k]
  early : ∀ q ∈ insertAt dec.rx i pkt, q.seq < (d + p) * B + (d + p)
  behind : ∀ q ∈ insertAt dec.rx i pkt, ∀ k' ∈ todo, q.seq < k'

section
variable {B rounds k i : Nat} {fec fec' : Fec} {held todo : List Nat} {out : List Bytes}
  {pkt : FecPacket} {ts : List FecPacket} {asm : Assembly}

theorem Filling.landed (h0 : 0 < d) (hd : d + p ≤ 256)
    (hcount : streamLength d p ps.length < 2 ^ 31) (hblk : (blockOf d B ps).length = d)
    (h : Filling codec d p ps B fec rounds held (k :: todo) out) (hseq : pkt.seq = k)
    (hpkt : OfStream codec d p ps pkt)
    (hI : Inserted d (blockOf d B ps) fec fec' pkt i ts asm) :
    Landed codec d p ps B fec.decoder held todo k pkt i ts := by
  have hq := h.aligned.queue
  have hkB := h.block k List.mem_cons_self
  have hbounds := (div_eq_iff_bounds (by omega : 0 < d + p)).1 hkB
  have hlt : ∀ q ∈ fec.decoder.rx, q.seq < 2 ^ 31 := fun q hm => (hq.ofStream q hm).lt
  have hpB : pkt.seq / (d + p) = B := by rw [hseq, hkB]
  have hins := insertAt_behind hq.ordered hlt hpkt.lt hI.scan fun q hm =>
    hseq ▸ h.behind q hm k List.mem_cons_self
  have hts := gathered_filter h.aligned.at_fec.dec hd hq.ordered hlt hpkt.lt
    (hpB ▸ block_end_le h0 hcount hblk) hI.scan hI.gathered
  rw [hpB] at hts
  refine ⟨hseq, hpkt, hts, ?_, fun q hm => ?_, fun q hm k' hk' => ?_⟩
  · rw [hts, hins, List.filter_append, List.map_append, h.queued,
      List.filter_cons_of_pos (by simpa using hpB), List.filter_nil, List.map_singleton, hseq]
  · rcases mem_insertAt.1 hm with rfl | hm
    · omega
    · exact h.early q hm
  · rcases mem_insertAt.1 hm with rfl | hm
    · rw [hseq]
      exact (List.pairwise_cons.1 h.order).1 k' hk'
    · exact h.behind q hm k' (List.mem_cons_of_mem _ hk')

theorem Landed.length_ts (h : Landed codec d p ps B fec.decoder held todo k pkt i ts) :
    ts.length = held.length + 1 := by
  rw [← List.length_map (f := FecPacket.seq), h.seqs, List.length_append, List.length_singleton]

theorem Filling.next_ahead (h : Filling codec d p ps B fec rounds held (k :: todo) out) :
    ∀ k' ∈ todo, (d + p) * B + (d * rounds + held.length + 1) ≤ k' := by
  intro k' hk'
  have := (List.pairwise_cons.1 h.order).1 k' hk'
  have := h.ahead k List.mem_cons_self
  omega

theorem filterMap_singleton (f : Nat → Option Bytes) (k : Nat) :
    [k].filterMap f = (f k).toList := by
  cases hk : f k <;> simp [hk]

/-- **The round goes on** with one more packet held. -/
theorem Filling.held_step (h : Filling codec d p ps B fec rounds held (k :: todo) out)
    (hL : Landed codec d p ps B fec.decoder held todo k pkt i ts)
    (hqueue : Queue codec d p ps (insertAt fec.decoder.rx i pkt))
    (hsame : (fec.decoder.outcome asm (insertAt fec.decoder.rx i pkt)).2 =
      insertAt fec.decoder.rx i pkt)
    (hal : Aligned codec d p ps fec'.flush)
    (hI : Inserted d (blockOf d B ps) fec fec' pkt i ts asm) :
    Filling codec d p ps B fec'.flush rounds (held ++ [k]) todo
      (out ++ ((streamPayload d p ps k).toList ++ fec'.dataCh)) := by
  have hrx : fec'.flush.decoder.rx = fec.decoder.limited (insertAt fec.decoder.rx i pkt) := by
    show fec'.decoder.rx = _
    rw [hI.decoder]
    exact congrArg fec.decoder.limited hsame
  have hsub : fec'.flush.decoder.rx.Sublist (insertAt fec.decoder.rx i pkt) := hI.rx_sublist
  have hfew : ts.length < d := by
    have := hqueue.few B
    rwa [List.countP_eq_length_filter, ← hL.mates] at this
  refine ⟨hal, ?_, fun q hm => hL.early q (hsub.mem hm), fun q hm => hL.behind q (hsub.mem hm),
    (List.pairwise_cons.1 h.order).2, fun k' hk' => h.block k' (List.mem_cons_of_mem _ hk'),
    ?_, ?_, ?_⟩
  · rw [hrx, limited_filter h.aligned.limit hqueue fun q hm => ?_, ← hL.mates, hL.seqs]
    have hdiv : q.seq / (d + p) < B + 1 := Nat.div_lt_of_lt_mul (by
      rw [Nat.mul_add, Nat.mul_one]
      exact hL.early q hm)
    omega
  · intro k' hk'
    rcases List.mem_append.1 hk' with hk' | hk'
    · exact h.later k' hk'
    · have := h.ahead k List.mem_cons_self
      rw [List.mem_singleton.1 hk']
      omega
  · intro k' hk'
    rw [List.length_append, List.length_singleton]
    exact h.next_ahead k' hk'
  · rw [hI.dataCh, restored_few hI.gathered hfew, ite_self, List.append_nil, List.filterMap_append,
      filterMap_singleton, ← List.append_assoc]
    exact h.delivered.append_right _

/-- **The round is over**: its packets are freed, and the block has been delivered once more. -/
theorem Filling.round_step (h0 : 0 < d) (hd : d + p ≤ 256) (hpos : ∀ b ∈ ps, 1 ≤ b.length)
    (hblk : (blockOf d B ps).length = d)
    (h : Filling codec d p ps B fec rounds held (k :: todo) out)
    (hL : Landed codec d p ps B fec.decoder held todo k pkt i ts) (hfull : d ≤ ts.length)
    (hmem : ∀ q, q ∈ (fec.decoder.outcome asm (insertAt fec.decoder.rx i pkt)).2 ↔
      q ∈ insertAt fec.decoder.rx i pkt ∧ q.seq / (d + p) ≠ pkt.seq / (d + p))
    (hal : Aligned codec d p ps fec'.flush)
    (hI : Inserted d (blockOf d B ps) fec fec' pkt i ts asm) :
    held.length + 1 = d ∧ Filling codec d p ps B fec'.flush (rounds + 1) [] todo
      (out ++ ((streamPayload d p ps k).toList ++ fec'.dataCh)) := by
  have hq := h.aligned.queue
  have hdec := h.aligned.at_fec.dec
  have hkB := h.block k List.mem_cons_self
  have hpB : pkt.seq / (d + p) = B := by rw [hL.seq, hkB]
  have hd1 : held.length + 1 = d := by
    have := h.length_held
    have := hL.length_ts
    omega
  have hleft : ∀ q ∈ fec'.flush.decoder.rx,
      q ∈ insertAt fec.decoder.rx i pkt ∧ q.seq / (d + p) ≠ pkt.seq / (d + p) := by
    intro q hm
    change q ∈ fec'.decoder.rx at hm
    rw [hI.decoder] at hm
    exact (hmem q).1 ((limited_sublist _ _).mem hm)
  have hlong : ¬ blockLen (blockOf d B ps) ≤ 2 := by
    obtain ⟨b, hb⟩ := List.exists_mem_of_length_pos (by omega : 0 < (blockOf d B ps).length)
    have := length_le_blockLen hb
    have := hpos b (mem_blockOf hb)
    omega
  have hround := delivered_perm hdec
    ((compared_seq.ordered_insertAt hq.ordered (fun q hm => (hq.ofStream q hm).lt) hL.ofStream.lt
      hI.scan).sublist hI.gathered.sublist)
    (fun q hm => hq.ofStream_insertAt hL.ofStream q (hI.gathered.mem hm).1) hfull
    (fun q hm => by rw [hq.gathered_div hdec h0 hd hL.ofStream hI.gathered q hm, hpB]) hI.gathered
    hblk
  rw [hL.seqs, List.filterMap_append, filterMap_singleton] at hround
  refine ⟨hd1, hal, ?_, fun q hm => hL.early q (hleft q hm).1,
    fun q hm => hL.behind q (hleft q hm).1, (List.pairwise_cons.1 h.order).2,
    fun k' hk' => h.block k' (List.mem_cons_of_mem _ hk'),
    fun k' hk' => absurd hk' List.not_mem_nil, ?_, ?_⟩
  · rw [List.map_eq_nil_iff, List.filter_eq_nil_iff]
    intro q hm
    rw [decide_eq_true_eq, ← hpB]
    exact (hleft q hm).2
  · intro k' hk'
    have := h.next_ahead k' hk'
    rw [Nat.mul_add, List.length_nil]
    omega
  · rw [hI.dataCh, if_neg hlong, List.replicate_succ', List.flatten_append, List.flatten_singleton,
      List.filterMap_nil, List.append_nil]
    refine (h.delivered.append_right _).trans ?_
    rw [List.append_assoc, ← List.append_assoc (held.filterMap _)]
    exact hround.append_left _

/-- **One more packet of the block arrives**: it is held, or it ends the round. -/
theorem filling_step (hlaw : codec.Lawful d p) (h0 : 0 < d) (hd : d + p ≤ 256)
    (hpay : ∀ b ∈ ps, b.length ≤ maxPayload) (hpos : ∀ b ∈ ps, 1 ≤ b.length)
    (hcount : streamLength d p ps.length < 2 ^ 31) (hblk : (blockOf d B ps).length = d)
    {a : Arrival} (h : Filling codec d p ps B fec rounds held (k :: todo) out)
    (hx : streamPacket codec d p ps k = some a.data) :
    ∃ data fec' rounds' held', fec.decode a = .ok (data, fec') ∧
      d * rounds' + held'.length = d * rounds + held.length + 1 ∧
      Filling codec d p ps B fec'.flush rounds' held' todo
        (out ++ (data.toList ++ fec'.dataCh)) := by
  have hend := block_end_le h0 hcount hblk
  have hkB := h.block k List.mem_cons_self
  have hbounds := (div_eq_iff_bounds (by omega : 0 < d + p)).1 hkB
  obtain ⟨pkt, fec', hseq, -, hpkt, hdec, hal, hcase⟩ :=
    aligned_step hlaw h0 hd hpay hcount h.aligned (by omega : k < 2 ^ 31) hx
  rcases hcase with ⟨⟨q, hq, hqk⟩, -⟩ | ⟨-, i, ts, asm, hI⟩
  · exact absurd hqk (Nat.ne_of_lt (h.behind q hq k List.mem_cons_self))
  rw [hkB] at hI
  have hL := h.landed h0 hd hcount hblk hseq hpkt hI
  obtain ⟨hqueue, hout⟩ :=
    queue_step h.aligned.at_fec.dec h0 hd hcount h.aligned.queue hpkt hI.scan hI.gathered
  rcases hout with hsame | ⟨hfull, -, hmem⟩
  · refine ⟨_, fec', rounds, held ++ [k], hdec, ?_, h.held_step hL (hsame ▸ hqueue) hsame hal hI⟩
    rw [List.length_append, List.length_singleton, Nat.add_assoc]
  · obtain ⟨hd1, hfill⟩ := h.round_step h0 hd hpos hblk hL hfull hmem hal hI
    refine ⟨_, fec', rounds + 1, [], hdec, ?_, hfill⟩
    rw [Nat.mul_add, List.length_nil]
    omega

end

/-! ## One block -/

/-- **The arrivals of one block** deliver it once for every `d` of them. -/
theorem drain_block (hlaw : codec.Lawful d p) (h0 : 0 < d) (hd : d + p ≤ 256)
    (hpay : ∀ b ∈ ps, b.length ≤ maxPayload) (hpos : ∀ b ∈ ps, 1 ≤ b.length)
    (hcount : streamLength d p ps.length < 2 ^ 31) {B : Nat} (hblk : (blockOf d B ps).length = d)
    {fec : Fec} (hal : Aligned codec d p ps fec) (hrx : ∀ q ∈ fec.decoder.rx, q.seq < (d + p) * B)
    {ks : List Nat} (horder : ks.Pairwise (· < ·)) (hblock : ∀ k ∈ ks, k / (d + p) = B)
    (henough : d ≤ ks.length) {arrivals : List Arrival}
    (harr : List.Forall₂ (fun a k => streamPacket codec d p ps k = some a.data) arrivals ks) :
    ∃ out fec', fec.drain arrivals = .ok (out, fec') ∧ Aligned codec d p ps fec' ∧
      (∀ q ∈ fec'.decoder.rx, q.seq < (d + p) * B + (d + p)) ∧
      out.Perm (List.replicate (ks.length / d) (blockOf d B ps)).flatten := by
  have hlow : ∀ k ∈ ks, (d + p) * B ≤ k := fun k hk =>
    ((div_eq_iff_bounds (by omega : 0 < d + p)).1 (hblock k hk)).1
  have hstart : Filling codec d p ps B fec 0 [] ks [] := by
    refine ⟨hal, ?_, fun q hq => by have := hrx q hq; omega,
      fun q hq k hk => Nat.lt_of_lt_of_le (hrx q hq) (hlow k hk), horder, hblock,
      fun k hk => absurd hk List.not_mem_nil, ?_, .refl _⟩
    · rw [List.map_eq_nil_iff, List.filter_eq_nil_iff]
      intro q hq hB
      have := ((div_eq_iff_bounds (by omega : 0 < d + p)).1 (of_decide_eq_true hB)).1
      have := hrx q hq
      omega
    · simpa using hlow
  obtain ⟨out, fec', hdrain, rounds, held, todo, hend, hfill, hsum⟩ := drain_rule
    (I := fun fec arrivals out => ∃ rounds held todo,
      List.Forall₂ (fun a k => streamPacket codec d p ps k = some a.data) arrivals todo ∧
      Filling codec d p ps B fec rounds held todo out ∧
      d * rounds + held.length + todo.length = ks.length)
    (fun fec a arrivals out hI => by
      obtain ⟨rounds, held, todo, harr, hfill, hsum⟩ := hI
      cases harr with
      | cons hx harr =>
        obtain ⟨data, fec', rounds', held', hdec, hnum, hfill'⟩ :=
          filling_step hlaw h0 hd hpay hpos hcount hblk hfill hx
        refine ⟨length_streamPacket_ne hx, data, fec', hdec, rounds', held', _, harr, hfill', ?_⟩
        rw [List.length_cons] at hsum
        omega)
    arrivals []
    ⟨0, [], ks, harr, hstart, by simp⟩
  cases hend
  rw [List.nil_append] at hfill
  have hheld := hfill.length_held
  have hrounds : rounds = ks.length / d := by
    symm
    rw [Nat.div_eq_iff h0, Nat.mul_comm]
    simp only [List.length_nil] at hsum
    omega
  refine ⟨out, fec', hdrain, hfill.aligned, hfill.early, ?_⟩
  -- what is left over are parity packets
  have hnone : held.filterMap (streamPayload d p ps) = [] := by
    refine List.filterMap_eq_nil_iff.2 fun k hk => if_neg ?_
    have hge := hfill.later k hk
    have hround : d * 1 ≤ d * rounds := Nat.mul_le_mul_left d (by
      rw [hrounds]
      exact Nat.div_pos henough h0)
    rw [← hfill.queued] at hk
    obtain ⟨q, hq, rfl⟩ := List.mem_map.1 hk
    have hmod := Nat.div_add_mod q.seq (d + p)
    rw [of_decide_eq_true (List.mem_filter.1 hq).2] at hmod
    omega
  have hperm := hfill.delivered
  rwa [hnone, List.append_nil, hrounds] at hperm

/-! ## The whole stream -/

/-- The number of packets of block `B`, of `n` packets, that are not dropped. -/
def arrived (n : Nat) (kept : Nat → Bool) (B : Nat) : Nat :=
  (List.range n).countP fun j => kept (n * B + j)

theorem filter_range_block (n m : Nat) (kept : Nat → Bool) :
    (List.range (n * (m + 1))).filter kept =
      (List.range (n * m)).filter kept ++ ((List.range n).map (n * m + ·)).filter kept := by
  rw [Nat.mul_succ, List.range_add, List.filter_append]

theorem length_blockOf_of_whole {m : Nat} (hwhole : ps.length = d * m) {B : Nat} (hB : B < m) :
    (blockOf d B ps).length = d := by
  have : d * (B + 1) ≤ d * m := Nat.mul_le_mul_left d hB
  rw [Nat.mul_succ] at this
  rw [blockOf, List.length_take, List.length_drop]
  omega

/-- **The arrivals of `m` whole blocks** deliver each block once for every `d` packets of it. -/
theorem drain_blocks (hlaw : codec.Lawful d p) (h0 : 0 < d) (hd : d + p ≤ 256)
    (hpay : ∀ b ∈ ps, b.length ≤ maxPayload) (hpos : ∀ b ∈ ps, 1 ≤ b.length)
    (hcount : streamLength d p ps.length < 2 ^ 31) {fec : Fec} (hal : Aligned codec d p ps fec)
    (hrx : fec.decoder.rx = []) {kept : Nat → Bool} :
    ∀ (m : Nat) {arrivals : List Arrival}, (∀ B < m, (blockOf d B ps).length = d) →
      (∀ B < m, d ≤ arrived (d + p) kept B) →
      List.Forall₂ (fun a k => streamPacket codec d p ps k = some a.data) arrivals
        ((List.range ((d + p) * m)).filter kept) →
      ∃ out fec', fec.drain arrivals = .ok (out, fec') ∧ Aligned codec d p ps fec' ∧
        (∀ q ∈ fec'.decoder.rx, q.seq < (d + p) * m) ∧
        out.Perm ((List.range m).flatMap fun B =>
          (List.replicate (arrived (d + p) kept B / d) (blockOf d B ps)).flatten) := by
  intro m
  induction m with
  | zero =>
    intro arrivals _ _ harr
    cases harr
    exact ⟨[], fec, rfl, hal, by simp [hrx], .refl _⟩
  | succ m ih =>
    intro arrivals hfull henough harr
    rw [filter_range_block] at harr
    obtain ⟨out₁, mid, hdrain₁, hmid, hbefore, hperm₁⟩ :=
      ih (fun B hB => hfull B (by omega)) (fun B hB => henough B (by omega))
        (List.forall₂_take_append _ _ _ harr)
    have hlen : (((List.range (d + p)).map ((d + p) * m + ·)).filter kept).length =
        arrived (d + p) kept m := by
      rw [← List.countP_eq_length_filter, List.countP_map]
      rfl
    obtain ⟨out₂, fec', hdrain₂, hal', hrx', hperm₂⟩ := drain_block hlaw h0 hd hpay hpos hcount
      (hfull m (by omega)) hmid hbefore
      (List.Pairwise.filter _ (List.pairwise_map.2 (List.pairwise_lt_range.imp fun h => by omega)))
      (fun k hk => by
        obtain ⟨j, hj, rfl⟩ := List.mem_map.1 (List.mem_filter.1 hk).1
        have := List.mem_range.1 hj
        rw [div_eq_iff_bounds (by omega)]
        omega)
      (hlen ▸ henough m (by omega)) (List.forall₂_drop_append _ _ _ harr)
    refine ⟨out₁ ++ out₂, fec', ?_, hal', by rwa [Nat.mul_succ], ?_⟩
    · rw [← List.take_append_drop ((List.range ((d + p) * m)).filter kept).length arrivals,
        drain_append _ _ hdrain₁, hdrain₂]
      rfl
    · rw [hlen] at hperm₂
      rw [List.range_succ, List.flatMap_append, List.flatMap_singleton]
      exact hperm₁.append hperm₂

/-! ## Exactly once -/

theorem flatMap_blockOf (d : Nat) (ps : List Bytes) (m : Nat) :
    (List.range m).flatMap (fun B => blockOf d B ps) = ps.take (d * m) := by
  induction m with
  | zero => simp
  | succ m ih =>
    rw [List.range_succ, List.flatMap_append, List.flatMap_singleton, ih, Nat.mul_succ,
      List.take_add]
    rfl

theorem length_flatMap_rounds {m : Nat} (hfull : ∀ B < m, (blockOf d B ps).length = d)
    (rounds : Nat → Nat) :
    ((List.range m).flatMap fun B => (List.replicate (rounds B) (blockOf d B ps)).flatten).length =
      d * ∑ B ∈ Finset.range m, rounds B := by
  induction m with
  | zero => simp
  | succ m ih =>
    rw [List.range_succ, List.flatMap_append, List.length_append, List.flatMap_singleton,
      ih fun B hB => hfull B (by omega), Finset.sum_range_succ, Nat.mul_add, List.length_flatten,
      List.map_replicate, List.sum_replicate_nat, hfull m (by omega), Nat.mul_comm d (rounds m)]

theorem perm_rounds_iff (h0 : 0 < d) {m : Nat} (hwhole : ps.length = d * m) {rounds : Nat → Nat}
    (hpos : ∀ B < m, 1 ≤ rounds B) :
    ((List.range m).flatMap fun B => (List.replicate (rounds B) (blockOf d B ps)).flatten).Perm ps ↔
      ∀ B < m, rounds B = 1 := by
  constructor
  · intro hperm
    have hlen := hperm.length_eq
    rw [length_flatMap_rounds (fun B hB => length_blockOf_of_whole hwhole hB), hwhole] at hlen
    have hsum : ∑ B ∈ Finset.range m, 1 = ∑ B ∈ Finset.range m, rounds B := by
      rw [Nat.eq_of_mul_eq_mul_left h0 hlen, ← Finset.card_eq_sum_ones, Finset.card_range]
    intro B hB
    exact ((Finset.sum_eq_sum_iff_of_le fun B hB => hpos B (Finset.mem_range.1 hB)).1 hsum B
      (Finset.mem_range.2 hB)).symm
  · intro hone
    have heq :
        ((List.range m).flatMap fun B => (List.replicate (rounds B) (blockOf d B ps)).flatten) =
        (List.range m).flatMap fun B => blockOf d B ps := by
      rw [List.flatMap_def, List.flatMap_def]
      refine congrArg _ (List.map_congr_left fun B hB => ?_)
      rw [hone B (List.mem_range.1 hB), List.replicate_one, List.flatten_singleton]
    rw [heq, flatMap_blockOf, List.take_of_length_le (Nat.le_of_eq hwhole)]

theorem forall₂_of_log {out : List Bytes}
    (hpkt : ∀ k x, out[k]? = some x → streamPacket codec d p ps k = some x) :
    ∀ (ks : List Nat) {arrivals : List Arrival}, (∀ k ∈ ks, k < out.length) →
      arrivals.map (·.data) = ks.filterMap (out[·]?) →
      List.Forall₂ (fun a k => streamPacket codec d p ps k = some a.data) arrivals ks := by
  intro ks
  induction ks with
  | nil =>
    intro arrivals _ harr
    rw [List.map_eq_nil_iff.1 harr]
    exact .nil
  | cons k ks ih =>
    intro arrivals hks harr
    have hk := List.getElem?_eq_getElem (hks k (by simp))
    rw [List.filterMap_cons_some hk] at harr
    obtain ⟨a, arrivals, rfl, ha, harr⟩ := List.map_eq_cons_iff.1 harr
    exact .cons (hpkt k _ (by rw [hk, ha])) (ih (fun k' hk' => hks k' (by simp [hk'])) harr)

/-- **Exactly once, when packets are only lost.** Payloads of 1 to `mtuLimit - 8` bytes that fill
`m` whole blocks are encoded, `send` doing what it likes; of the packets `out` that `Encode`
produced, those that are not `kept` are dropped, at most `p` of each block, and the others arrive in
order at a fresh peer. The calls of `DecodeData` return the payloads `outs` and consume the
arrivals; these are the encoded payloads, each once, if and only if fewer than `2 * d` packets of
each block arrive. -/
theorem exactly_once_iff {rs : Nat → Nat → Option (Codec UInt8)} {σ ε : Type}
    (hrs : rs d p = some codec) (hlaw : codec.Lawful d p) (h0 : 1 ≤ d) (hp : 1 ≤ p)
    (hd : d + p ≤ 256)
    (hpay : ∀ b ∈ ps, 1 ≤ b.length ∧ b.length ≤ mtuLimit - 8) (m : Nat) (hwhole : ps.length = d * m)
    (hcount : streamLength d p ps.length < 2 ^ 31) (send : Bytes → σ → Option ε × σ) (s : σ) :
    ∃ fec out fec' s', newFec rs d p 0 = some fec ∧
      fec.encodeLog send ps s = .ok (out, fec', s') ∧
      ∀ (kept : Nat → Bool),
        (∀ B < m, ((List.range (d + p)).countP fun j => !kept ((d + p) * B + j)) ≤ p) →
        ∀ (peer : Fec) (arrivals : List Arrival), newFec rs d p 0 = some peer →
        arrivals.map (·.data) = ((List.range out.length).filter kept).filterMap (out[·]?) →
        ∃ outs : List Bytes,
          (∀ n, ∃ peer' rest, Fec.decodeCalls n peer arrivals = .ok (outs.take n, peer', rest) ∧
            (outs.length < n → rest = [])) ∧
          (outs.Perm ps ↔
            ∀ B < m, ((List.range (d + p)).countP fun j => kept ((d + p) * B + j)) < 2 * d) := by
  obtain ⟨fec, hnew, -⟩ := newFec_ok h0 hp hd hrs
  obtain ⟨hat, hal, hrx⟩ := aligned_new h0 hp hd hrs ps hnew
  obtain ⟨out, fec', s', hlog, -, hlen, hpkt⟩ :=
    encodeLog_new send hlaw.encodes h0 hp hd hat ps s fun b hb => (hpay b hb).2
  have htotal : out.length = (d + p) * m := by
    rw [hlen, streamLength, hwhole, Nat.mul_div_cancel_left m h0, Nat.add_mul, Nat.mul_comm m p]
  refine ⟨fec, out, fec', s', hnew, hlog, fun kept hlost peer arrivals hpeer harr => ?_⟩
  obtain rfl : fec = peer := Option.some.inj (hnew.symm.trans hpeer)
  have hstream := forall₂_of_log hpkt _ (fun k hk => List.mem_range.1 (List.mem_filter.1 hk).1) harr
  rw [htotal] at hstream
  have henough : ∀ B < m, d ≤ arrived (d + p) kept B := fun B hB => by
    have hsplit := List.length_eq_countP_add_countP
      (fun j => kept ((d + p) * B + j)) (l := List.range (d + p))
    have := hlost B hB
    rw [List.length_range] at hsplit
    simp only [Bool.not_eq_true, Bool.decide_eq_false] at hsplit
    unfold arrived
    omega
  obtain ⟨outs, last, hdrain, -, -, hperm⟩ := drain_blocks hlaw h0 hd (fun b hb => (hpay b hb).2)
    (fun b hb => (hpay b hb).1) hcount hal hrx m
    (fun B hB => length_blockOf_of_whole hwhole hB) henough hstream
  refine ⟨outs, fun n => ?_, ?_⟩
  · have hcalls : fec.flush.drain arrivals = .ok (outs, last) := by
      rw [flush_of_nil hal.drained]
      exact hdrain
    have := decodeCalls_drain n hcalls
    rwa [hal.drained, List.nil_append] at this
  · have hone : ∀ B < m, arrived (d + p) kept B / d = 1 ↔ arrived (d + p) kept B < 2 * d := by
      intro B hB
      have := henough B hB
      rw [Nat.div_eq_iff h0]
      omega
    rw [List.Perm.congr_left hperm,
      perm_rounds_iff h0 hwhole fun B hB => Nat.div_pos (henough B hB) h0]
    exact forall₂_congr hone

end

/-- Two payloads with the codec of two data shards and one parity shard, the second data packet
lost. -/
theorem exactly_once_rs21 :
    ∃ fec outs peer', newFec newRs21 2 1 0 = some fec ∧
      Fec.decodeCalls 3 fec [⟨[0, 0, 0, 0, 0xf1, 0, 3, 0, 7], .new⟩,
        ⟨[2, 0, 0, 0, 0xf2, 0, 13, 0, 25, 18], .new⟩] = .ok (outs, peer', []) ∧
      outs.Perm [[7], [8, 9]] := by
  obtain ⟨fec, out, fec', s', hnew, hlog, h⟩ :=
    exactly_once_iff (show newRs21 2 1 = some rs21 from rfl) rs21_lawful (by decide) (by decide)
      (by decide)
      (show ∀ b ∈ ([[7], [8, 9]] : List Bytes), 1 ≤ b.length ∧ b.length ≤ mtuLimit - 8 by decide)
      1 rfl (by decide) Wire.send (Wire.new fun _ => false)
  have hout : ((newFec newRs21 2 1 0).bind fun fec =>
      (fec.encodeLog Wire.send [[7], [8, 9]] (Wire.new fun _ => false)).toOption.map (·.1)) =
      some [[0, 0, 0, 0, 0xf1, 0, 3, 0, 7], [1, 0, 0, 0, 0xf1, 0, 4, 0, 8, 9],
        [2, 0, 0, 0, 0xf2, 0, 13, 0, 25, 18]] := by decide +kernel
  rw [hnew, Option.bind_some, hlog] at hout
  replace hout : out = _ := Option.some.inj hout
  obtain ⟨outs, hcalls, honce⟩ := h (· != 1) (by decide) fec
    [⟨[0, 0, 0, 0, 0xf1, 0, 3, 0, 7], .new⟩, ⟨[2, 0, 0, 0, 0xf2, 0, 13, 0, 25, 18], .new⟩] hnew
    (by rw [hout]; decide)
  have hperm := honce.2 (by decide)
  have hlen : outs.length < 3 := by rw [hperm.length_eq]; decide
  obtain ⟨peer', rest, hrun, hrest⟩ := hcalls 3
  rw [hrest hlen, List.take_of_length_le (Nat.le_of_lt hlen)] at hrun
  exact ⟨fec, outs, peer', hnew, hrun, hperm⟩

/-- **A payload is delivered twice although no packet is**: with one data shard and one parity shard
nothing is lost; the parity packet completes its block a second time. -/
theorem delivered_again :
    ∃ fec out fec' s', newFec newRs3 1 1 0 = some fec ∧
      fec.encodeLog Wire.send [[7]] (Wire.new fun _ => false) = .ok (out, fec', s') ∧
      out = [[0, 0, 0, 0, 0xf1, 0, 3, 0, 7], [1, 0, 0, 0, 0xf2, 0, 3, 0, 7]] ∧
      (Fec.decodeCalls 3 fec [⟨[0, 0, 0, 0, 0xf1, 0, 3, 0, 7], .new⟩,
        ⟨[1, 0, 0, 0, 0xf2, 0, 3, 0, 7], .new⟩]).toOption.map (·.1) = some [[7], [7]] ∧
      ¬ [[7], [7]].Perm [[7]] := by
  have hrun : ((newFec newRs3 1 1 0).bind fun fec =>
      (fec.encodeLog Wire.send [[7]] (Wire.new fun _ => false)).toOption.map fun r =>
        (r.1, (Fec.decodeCalls 3 fec [⟨[0, 0, 0, 0, 0xf1, 0, 3, 0, 7], .new⟩,
          ⟨[1, 0, 0, 0, 0xf2, 0, 3, 0, 7], .new⟩]).toOption.map (·.1))) =
      some ([[0, 0, 0, 0, 0xf1, 0, 3, 0, 7], [1, 0, 0, 0, 0xf2, 0, 3, 0, 7]],
        some [[7], [7]]) := by decide +kernel
  obtain ⟨fec, hnew, hrun⟩ := Option.bind_eq_some_iff.1 hrun
  obtain ⟨r, hr, hrun⟩ := Option.map_eq_some_iff.1 hrun
  obtain ⟨hout, hcalls⟩ := Prod.mk.inj hrun
  exact ⟨fec, r.1, r.2.1, r.2.2, hnew, ok_of_toOption hr, hout, hcalls, by decide⟩

end Faketcp
