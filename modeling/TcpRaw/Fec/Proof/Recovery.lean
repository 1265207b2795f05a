import Mathlib.Data.List.Perm.Subperm
import TcpRaw.Fec.Proof.Queue

/-!
# Recovery of lost payloads

`fec_recovery`: if `d` distinct packets of a block arrive before any packet three blocks ahead, each
payload of the block is returned by the `DecodeData` calls that consume the arrivals, whatever else
is lost, repeated or reordered. Until the block is complete, its packets that have arrived are in
the queue (`Collecting`), and there are fewer than `d` of them; so when `d` have arrived it is
complete.
-/

namespace Faketcp

open GoRt Erasure Keyed

/-- Every payload of block `B` is in `out`. -/
def Complete (d : Nat) (ps : List Bytes) (B : Nat) (out : List Bytes) : Prop :=
  ∀ k < d, ∃ b, ps[d * B + k]? = some b ∧ b ∈ out

theorem Complete.mono {d B : Nat} {ps out out' : List Bytes} (h : Complete d ps B out)
    (hs : ∀ b ∈ out, b ∈ out') : Complete d ps B out' := fun k hk => by
  obtain ⟨b, hb, hm⟩ := h k hk
  exact ⟨b, hb, hs b hm⟩

/-- The arrivals `done` have been consumed without completing block `B`: its packets among them are
in the queue, and no packet there is three blocks ahead. -/
structure Collecting (d p : Nat) (ps : List Bytes) (B : Nat) (done : List Arrival) (fec : Fec)
    (out : List Bytes) : Prop where
  early : ∀ q ∈ fec.decoder.rx, q.seq / (d + p) < B + 3
  kept : ∀ a ∈ done, wireSeqid a.data / (d + p) = B →
    ∃ q ∈ fec.decoder.rx, q.seq = wireSeqid a.data
  returned : ∀ q ∈ fec.decoder.rx, q.seq / (d + p) = B → q.seq % (d + p) < d →
    ∃ b, ps[d * B + q.seq % (d + p)]? = some b ∧ b ∈ out

/-- What holds between calls, for the arrivals `pre` before a packet three blocks ahead of `B` and
the later ones `post`. -/
structure Track (codec : Codec UInt8) (d p : Nat) (ps : List Bytes) (B : Nat)
    (pre post : List Arrival) (fec : Fec) (arrivals : List Arrival) (out : List Bytes) :
    Prop where
  good : Good codec d p ps fec arrivals out
  limit : fec.decoder.rxlimit = 3 * (d + p)
  queue : Queue codec d p ps fec.decoder.rx
  room : (d + 1) * arrivals.length + fec.dataCh.length + out.length
    ≤ (d + 1) * (pre ++ post).length
  phase : Complete d ps B (out ++ fec.dataCh) ∨
    ∃ done rest, pre = done ++ rest ∧ arrivals = rest ++ post ∧ Collecting d p ps B done fec out

section
variable {codec : Codec UInt8} {d p : Nat} {ps : List Bytes} {B : Nat}

theorem Collecting.few {done : List Arrival} {fec : Fec} {out : List Bytes}
    (h : Collecting d p ps B done fec out) (hq : Queue codec d p ps fec.decoder.rx)
    {ids : List Nat} (hnd : ids.Nodup)
    (hids : ∀ s ∈ ids, s / (d + p) = B ∧ ∃ a ∈ done, wireSeqid a.data = s) : ids.length < d := by
  have hsub : ids ⊆ (fec.decoder.rx.filter (fun q => q.seq / (d + p) = B)).map FecPacket.seq := by
    intro s hs
    obtain ⟨hB, a, ha, rfl⟩ := hids s hs
    obtain ⟨q, hq, he⟩ := h.kept a ha hB
    exact List.mem_map.2 ⟨q, List.mem_filter.2 ⟨hq, by simpa [he] using hB⟩, he⟩
  have hle := (hnd.subperm hsub).length_le
  have := hq.few B
  rw [List.countP_eq_length_filter] at this
  rw [List.length_map] at hle
  omega

theorem OfStream.payload {pkt : FecPacket} (hpkt : OfStream codec d p ps pkt)
    (hB : pkt.seq / (d + p) = B) (hlt : pkt.seq % (d + p) < d) :
    ∃ b, ps[d * B + pkt.seq % (d + p)]? = some b ∧
      streamPayload d p ps pkt.seqid.toNat = some b := by
  unfold FecPacket.seq at hB hlt ⊢
  have hshard := hpkt.fromBlock.shard
  rw [blockShard, if_pos hlt] at hshard
  obtain ⟨b, hb, -⟩ := Option.map_eq_some_iff.1 hshard
  refine ⟨b, by rw [← getElem?_blockOf hlt, ← hB, hb], ?_⟩
  rw [streamPayload, if_pos hlt, hb]

/-- A block that is freed is complete: each payload was returned with its data packet, or is
restored. -/
theorem complete_of_freed (h0 : 0 < d) (hd : d + p ≤ 256) (hpos : ∀ b ∈ ps, 1 ≤ b.length)
    {fec fec' : Fec} {out : List Bytes} {pkt : FecPacket} {i : Nat} {ts : List FecPacket}
    {asm : Assembly} (hdec : DecAt codec d p fec.decoder) (hq : Queue codec d p ps fec.decoder.rx)
    (hpkt : OfStream codec d p ps pkt) (hB : pkt.seq / (d + p) = B)
    (hI : Inserted d (blockOf d B ps) fec fec' pkt i ts asm)
    (hret : ∀ q ∈ insertAt fec.decoder.rx i pkt, q.seq / (d + p) = B → q.seq % (d + p) < d →
      ∃ b, ps[d * B + q.seq % (d + p)]? = some b ∧ b ∈ out)
    (hfull : d ≤ ts.length) (hlen : (blockOf d B ps).length = d) :
    Complete d ps B (out ++ fec'.dataCh) := by
  subst hB
  intro k hk
  have hkl : k < (blockOf d (pkt.seq / (d + p)) ps).length := by omega
  have hbk := List.getElem?_eq_getElem hkl
  have hps : ps[d * (pkt.seq / (d + p)) + k]? = some (blockOf d (pkt.seq / (d + p)) ps)[k] := by
    rw [← getElem?_blockOf hk, hbk]
  refine ⟨_, hps, List.mem_append.2 ?_⟩
  have hof : ∀ q ∈ ts, OfStream codec d p ps q :=
    fun q hm => hq.ofStream_insertAt hpkt q (hI.gathered.mem hm).1
  have hin := hq.gathered_div hdec h0 hd hpkt hI.gathered
  have ho := (compared_seq.ordered_insertAt hq.ordered (fun q hm => (hq.ofStream q hm).lt) hpkt.lt
    hI.scan).sublist hI.gathered.sublist
  rcases payload_cases hdec ho hof hfull hin hI.gathered hk hbk with ⟨q, hm, he⟩ | hres
  · have hmod : q.seq % (d + p) = k := by
      rw [he, Nat.mul_add_mod, Nat.mod_eq_of_lt (by omega)]
    obtain ⟨b, hb, hm'⟩ := hret q (hI.gathered.mem hm).1 (hin q hm) (by omega)
    rw [hmod, hps, Option.some.injEq] at hb
    exact .inl (hb ▸ hm')
  · have hlen3 := length_le_blockLen (List.getElem_mem hkl)
    have hb1 := hpos _ (mem_blockOf (List.getElem_mem hkl))
    rw [hI.dataCh, if_neg (by omega)]
    exact .inr hres

section
variable {fec fec' : Fec} {done : List Arrival} {out out' : List Bytes} {a : Arrival}
  {pkt : FecPacket} {i : Nat} {ts : List FecPacket} {asm : Assembly}

theorem Collecting.again (h : Collecting d p ps B done fec out) (hout : ∀ b ∈ out, b ∈ out')
    (hdup : ∃ q ∈ fec.decoder.rx, q.seq = wireSeqid a.data) :
    Collecting d p ps B (done ++ [a]) fec out' := by
  refine ⟨h.early, fun a' ha' hB => ?_, fun q hq hB hk => ?_⟩
  · rcases List.mem_append.1 ha' with ha' | ha'
    · exact h.kept a' ha' hB
    · rw [List.mem_singleton.1 ha']
      exact hdup
  · obtain ⟨b, hb, hm⟩ := h.returned q hq hB hk
    exact ⟨b, hb, hout b hm⟩

theorem collecting_insert (h0 : 0 < d) (hd : d + p ≤ 256)
    (hpos : ∀ b ∈ ps, 1 ≤ b.length) (hcount : streamLength d p ps.length < 2 ^ 31)
    (hf : FecAt codec d p fec) (hlim : fec.decoder.rxlimit = 3 * (d + p))
    (hq : Queue codec d p ps fec.decoder.rx) (h : Collecting d p ps B done fec out)
    (hout : ∀ b ∈ out, b ∈ out') (hpkt : OfStream codec d p ps pkt)
    (hseq : pkt.seq = wireSeqid a.data) (hearly : pkt.seq / (d + p) < B + 3)
    (hret : pkt.seq / (d + p) = B → pkt.seq % (d + p) < d →
      ∃ b, ps[d * B + pkt.seq % (d + p)]? = some b ∧ b ∈ out')
    (hI : Inserted d (blockOf d (pkt.seq / (d + p)) ps) fec fec' pkt i ts asm) :
    Complete d ps B (out' ++ fec'.dataCh) ∨ Collecting d p ps B (done ++ [a]) fec' out' := by
  have hins_early : ∀ q ∈ insertAt fec.decoder.rx i pkt, q.seq / (d + p) < B + 3 := by
    intro q hmem
    rcases mem_insertAt.1 hmem with rfl | hmem
    · exact hearly
    · exact h.early q hmem
  have hins_kept : ∀ a' ∈ done ++ [a], wireSeqid a'.data / (d + p) = B →
      ∃ q ∈ insertAt fec.decoder.rx i pkt, q.seq = wireSeqid a'.data := by
    intro a' ha' hB
    rcases List.mem_append.1 ha' with ha' | ha'
    · obtain ⟨q, hq, he⟩ := h.kept a' ha' hB
      exact ⟨q, mem_insertAt.2 (.inr hq), he⟩
    · rw [List.mem_singleton.1 ha']
      exact ⟨pkt, mem_insertAt.2 (.inl rfl), hseq⟩
  have hins_ret : ∀ q ∈ insertAt fec.decoder.rx i pkt, q.seq / (d + p) = B →
      q.seq % (d + p) < d → ∃ b, ps[d * B + q.seq % (d + p)]? = some b ∧ b ∈ out' := by
    intro q hmem hB hk
    rcases mem_insertAt.1 hmem with rfl | hmem
    · exact hret hB hk
    · obtain ⟨b, hb, hm⟩ := h.returned q hmem hB hk
      exact ⟨b, hb, hout b hm⟩
  obtain ⟨hq2, hcase⟩ := queue_step hf.dec h0 hd hcount hq hpkt hI.scan hI.gathered
  have hsub := outcome_sublist fec.decoder asm (insertAt fec.decoder.rx i pkt)
  -- nothing of block `B` leaves the queue unless it is the block that is freed
  have hcollect : (∀ q ∈ insertAt fec.decoder.rx i pkt, q.seq / (d + p) = B →
      q ∈ (fec.decoder.outcome asm (insertAt fec.decoder.rx i pkt)).2) →
      Collecting d p ps B (done ++ [a]) fec' out' := by
    intro hkeep
    have hmem := fun q hm => hI.rx_sublist.mem (a := q) hm
    refine ⟨fun q hm => hins_early q (hmem q hm), fun a' ha' hB => ?_,
      fun q hm => hins_ret q (hmem q hm)⟩
    obtain ⟨q, hm, he⟩ := hins_kept a' ha' hB
    refine ⟨q, ?_, he⟩
    rw [hI.decoder]
    exact limited_keeps hlim hq2 (fun q' hm' => hins_early q' (hsub.mem hm'))
      (hkeep q hm (by rw [he]; exact hB)) (by rw [he]; exact hB)
  rcases hcase with heq | ⟨hfull, hlen, hmem⟩
  · exact .inr (hcollect fun q hm _ => by rw [heq]; exact hm)
  by_cases hB : pkt.seq / (d + p) = B
  · rw [hB] at hI hlen
    exact .inl (complete_of_freed h0 hd hpos hf.dec hq hpkt hB hI hins_ret hfull hlen)
  · exact .inr (hcollect fun q hm hqB => (hmem q).2 ⟨hm, fun he => hB (he ▸ hqB)⟩)

end

theorem track_step (hlaw : codec.Lawful d p) (h0 : 0 < d) (hd : d + p ≤ 256)
    (hpay : ∀ b ∈ ps, b.length ≤ maxPayload) (hpos : ∀ b ∈ ps, 1 ≤ b.length)
    (hcount : streamLength d p ps.length < 2 ^ 31) {pre post : List Arrival}
    (hpre : ∀ a ∈ pre, wireSeqid a.data / (d + p) < B + 3) {ids : List Nat} (hnd : ids.Nodup)
    (hlen : d ≤ ids.length)
    (hids : ∀ s ∈ ids, s / (d + p) = B ∧ ∃ a ∈ pre, wireSeqid a.data = s) {fec : Fec}
    {a : Arrival} {arrivals : List Arrival} {out : List Bytes}
    (h : Track codec d p ps B pre post fec (a :: arrivals) out) (hch : fec.dataCh = []) :
    ∃ data fec', fec.decode a = .ok (data, fec') ∧
      Track codec d p ps B pre post fec' arrivals (out ++ data.toList) := by
  obtain ⟨data, fec', hdec, hgood⟩ := good_step hlaw h0 hd hpay h.good hch
  obtain ⟨k, hk, hx⟩ := h.good.emitted a (by simp)
  obtain ⟨pkt, fec2, hseq, hwire, hpkt, hdec2, -, hcase⟩ :=
    stream_step hlaw h0 hd hpay h.good.at_fec h.good.rx hch hk hx
  obtain ⟨rfl, rfl⟩ : data = _ ∧ fec' = fec2 := by simpa [hdec] using hdec2
  subst hseq
  refine ⟨_, fec', hdec, hgood, hcase.rxlimit.trans h.limit, ?_, ?_, ?_⟩
  · rcases hcase with ⟨-, rfl⟩ | ⟨i, ts, asm, hI⟩
    · exact h.queue
    · rw [hI.decoder]
      exact (queue_step h.good.at_fec.dec h0 hd hcount h.queue hpkt hI.scan hI.gathered).1.sublist
        (limited_sublist _ _)
  · have hroom := h.room
    have hchl := hcase.length_dataCh hch
    have hdl : ∀ o : Option Bytes, o.toList.length ≤ 1 := fun o => by cases o <;> simp
    have := hdl (streamPayload d p ps pkt.seqid.toNat)
    rw [List.length_cons, Nat.mul_add, Nat.mul_one, hch, List.length_nil] at hroom
    rw [List.length_append]
    omega
  · have hmono : ∀ b ∈ out, b ∈ out ++ (streamPayload d p ps pkt.seqid.toNat).toList :=
      fun b hb => List.mem_append_left _ hb
    rcases h.phase with hc | ⟨done, rest, hpe, hae, hcol⟩
    · rw [hch, List.append_nil] at hc
      exact .inl (hc.mono fun b hb => List.mem_append_left _ (hmono b hb))
    cases rest with
    | nil =>
      -- all of `pre` consumed, and the block not complete
      rw [List.append_nil] at hpe
      have := hcol.few h.queue hnd fun s hs => by rw [← hpe]; exact hids s hs
      omega
    | cons a' rest =>
      obtain ⟨rfl, rfl⟩ : a = a' ∧ arrivals = rest ++ post := by simpa using hae
      have hpe' : pre = done ++ [a] ++ rest := by rw [hpe]; simp
      rcases hcase with ⟨⟨q, hq, he⟩, rfl⟩ | ⟨i, ts, asm, hI⟩
      · exact .inr ⟨done ++ [a], rest, hpe', rfl,
          hcol.again hmono ⟨q, hq, by rw [hwire, FecPacket.seq, he]⟩⟩
      · have hret : pkt.seq / (d + p) = B → pkt.seq % (d + p) < d →
            ∃ b, ps[d * B + pkt.seq % (d + p)]? = some b ∧
              b ∈ out ++ (streamPayload d p ps pkt.seqid.toNat).toList := by
          intro hB hlt
          obtain ⟨b, hb, hsp⟩ := hpkt.payload hB hlt
          exact ⟨b, hb, by simp [hsp]⟩
        have hearly : pkt.seq / (d + p) < B + 3 := by
          have := hpre a (by simp [hpe])
          rwa [hwire] at this
        exact (collecting_insert h0 hd hpos hcount h.good.at_fec h.limit h.queue hcol hmono hpkt
          hwire.symm hearly hret hI).imp_right fun hc => ⟨done ++ [a], rest, hpe', rfl, hc⟩

theorem track_pop {pre post : List Arrival} {fec : Fec} {arrivals : List Arrival}
    {out : List Bytes} {data : Bytes} {dataCh : List Bytes}
    (h : Track codec d p ps B pre post fec arrivals out) (hch : fec.dataCh = data :: dataCh) :
    Track codec d p ps B pre post
      { fec with dataCh, rxBytes := fec.rxBytes + UInt64.ofNat data.length } arrivals
      (out ++ [data]) := by
  refine ⟨good_pop h.good hch, h.limit, h.queue, ?_, ?_⟩
  · have hroom := h.room
    rw [hch, List.length_cons] at hroom
    rw [List.length_append, List.length_singleton]
    show (d + 1) * arrivals.length + dataCh.length + (out.length + 1) ≤ _
    omega
  · rcases h.phase with hc | ⟨done, rest, hpe, hae, hcol⟩
    · refine .inl (hc.mono fun b hb => ?_)
      rw [hch] at hb
      simpa using hb
    · refine .inr ⟨done, rest, hpe, hae, hcol.early, hcol.kept, fun q hq hB hk => ?_⟩
      obtain ⟨b, hb, hm⟩ := hcol.returned q hq hB hk
      exact ⟨b, hb, List.mem_append_left _ hm⟩

/-- **Recovery of lost payloads.** Payloads of 1 to `mtuLimit - 8` bytes are encoded in turn, any
subset of the send calls failing, and any sequence of sent packets arrives at a fresh peer. If at
least `d` distinct packets of block `B` are among the arrivals `pre`, in which there is no packet of
a block from `B + 3` on, then the `DecodeData` calls that consume the arrivals return each of the
`d` payloads of `B`. -/
theorem fec_recovery {rs : Nat → Nat → Option (Codec UInt8)} (hrs : rs d p = some codec)
    (hlaw : codec.Lawful d p) (h0 : 1 ≤ d) (hp : 1 ≤ p) (hd : d + p ≤ 256)
    (hpay : ∀ b ∈ ps, 1 ≤ b.length ∧ b.length ≤ mtuLimit - 8)
    (hcount : streamLength d p ps.length < 2 ^ 31) (fails : Nat → Bool) :
    ∃ fec fec' wire, newFec rs d p 0 = some fec ∧
      fec.encodeCalls Wire.send ps (Wire.new fails) = .ok (fec', wire) ∧
      ∀ (peer : Fec), newFec rs d p 0 = some peer →
        ∀ (pre post : List Arrival), (∀ a ∈ pre ++ post, a.data ∈ wire.sent) →
        ∀ (B : Nat), (∀ a ∈ pre, wireSeqid a.data < (B + 3) * (d + p)) →
        ∀ (ids : List Nat), ids.Nodup → d ≤ ids.length →
          (∀ s ∈ ids, B * (d + p) ≤ s ∧ s < (B + 1) * (d + p) ∧ ∃ a ∈ pre, wireSeqid a.data = s) →
        ∃ N, ∀ n ≥ N, ∃ outs peer',
          Fec.decodeCalls n peer (pre ++ post) = .ok (outs, peer', []) ∧
          ∀ k < d, ∃ b, ps[B * d + k]? = some b ∧ b ∈ outs := by
  obtain ⟨fec, hnew, hat, hfec, hrx, hlim, hch⟩ := newFec_ok h0 hp hd hrs
  have hmax : ∀ b ∈ ps, b.length ≤ maxPayload := fun b hb => (hpay b hb).2
  have hn : 0 < d + p := by omega
  obtain ⟨fec', wire, hrun, -, hsent⟩ :=
    encodeCalls_stream hlaw h0 hp hd ps (Wire.new fails) hat hmax
  refine ⟨fec, fec', wire, hnew, hrun, fun peer hpeer pre post harr B hpre ids hnd hlen hids => ?_⟩
  obtain rfl : fec = peer := Option.some.inj (hnew.symm.trans hpeer)
  have hpre' : ∀ a ∈ pre, wireSeqid a.data / (d + p) < B + 3 := fun a ha =>
    (Nat.div_lt_iff_lt_mul hn).2 (hpre a ha)
  have hids' : ∀ s ∈ ids, s / (d + p) = B ∧ ∃ a ∈ pre, wireSeqid a.data = s := fun s hs => by
    obtain ⟨hlo, hhi, ha⟩ := hids s hs
    rw [Nat.add_one_mul] at hhi
    exact ⟨(div_eq_iff_bounds hn).2
      ⟨by rw [Nat.mul_comm]; exact hlo, by rw [Nat.mul_comm]; exact hhi⟩, ha⟩
  have hgood : Good codec d p ps fec (pre ++ post) [] := by
    refine ⟨hfec, by simp [hrx], by simp [hch], by simp, fun a ha => ?_⟩
    rcases hsent a.data (harr a ha) with h | ⟨k, hk, hx⟩
    · cases h
    · exact ⟨k, Nat.lt_trans hk hcount, hx⟩
  have htrack : Track codec d p ps B pre post fec (pre ++ post) [] := by
    refine ⟨hgood, hlim, ⟨?_, by simp [hrx], fun b => by rw [hrx]; exact h0⟩, by simp [hch], ?_⟩
    · rw [hrx]
      exact List.Pairwise.nil
    · exact .inr ⟨[], pre, rfl, rfl, by simp [hrx], by simp, by simp [hrx]⟩
  refine ⟨(d + 1) * (pre ++ post).length + 1, fun n hN => ?_⟩
  obtain ⟨outs, peer', rest, hcalls, htr, hend⟩ := decodeCalls_rule
    (I := Track codec d p ps B pre post) (fun _ _ _ _ _ h hch => track_pop h hch)
    (fun _ a _ _ h hz => by
      obtain ⟨k, -, hx⟩ := h.good.emitted a (by simp)
      obtain ⟨shard, -, he⟩ := Option.map_eq_some_iff.1 hx
      rw [← he] at hz
      simp [packet] at hz)
    (fun _ _ _ _ h hch _ => track_step hlaw h0 hd hmax (fun b hb => (hpay b hb).1) hcount hpre'
      hnd hlen hids' h hch) n fec (pre ++ post) [] htrack
  rw [List.nil_append] at htr
  have hroom := htr.room
  obtain ⟨rfl, hch'⟩ : rest = [] ∧ peer'.dataCh = [] := by
    rcases hend with he | he
    · omega
    · exact he
  refine ⟨outs, peer', hcalls, fun k hk => ?_⟩
  rw [Nat.mul_comm B d]
  rcases htr.phase with hc | ⟨done, rest, hpe, hae, hcol⟩
  · rw [hch', List.append_nil] at hc
    exact hc k hk
  · obtain ⟨rfl, -⟩ : rest = [] ∧ post = [] := by simpa using hae.symm
    rw [List.append_nil] at hpe
    have := hcol.few htr.queue hnd fun s hs => by rw [← hpe]; exact hids' s hs
    omega

end

/-- One block of two data shards and one parity shard, whose second data packet is lost: its first
data packet arrives after the parity packet. -/
theorem fec_recovery_rs21 :
    ∃ fec fec' wire, newFec newRs21 2 1 0 = some fec ∧
      fec.encodeCalls Wire.send [[7], [8, 9]] (Wire.new fun _ => false) = .ok (fec', wire) ∧
      ∃ N, ∀ n ≥ N, ∃ outs peer',
        Fec.decodeCalls n fec [⟨[2, 0, 0, 0, 0xf2, 0, 13, 0, 25, 18], .new⟩,
          ⟨[0, 0, 0, 0, 0xf1, 0, 3, 0, 7], .new⟩] = .ok (outs, peer', []) ∧
        [7] ∈ outs ∧ [8, 9] ∈ outs := by
  obtain ⟨fec, fec', wire, hnew, hrun, h⟩ :=
    fec_recovery (show newRs21 2 1 = some rs21 from rfl) rs21_lawful (by decide) (by decide)
      (by decide)
      (show ∀ b ∈ ([[7], [8, 9]] : List Bytes), 1 ≤ b.length ∧ b.length ≤ mtuLimit - 8 by decide)
      (by decide) fun _ => false
  have hsent : ((newFec newRs21 2 1 0).bind fun fec =>
      (fec.encodeCalls Wire.send [[7], [8, 9]] (Wire.new fun _ => false)).toOption.map (·.2.sent)) =
      some [[0, 0, 0, 0, 0xf1, 0, 3, 0, 7], [1, 0, 0, 0, 0xf1, 0, 4, 0, 8, 9],
        [2, 0, 0, 0, 0xf2, 0, 13, 0, 25, 18]] := by decide +kernel
  rw [hnew, Option.bind_some, hrun] at hsent
  replace hsent : wire.sent = _ := Option.some.inj hsent
  obtain ⟨N, hN⟩ := h fec hnew [⟨[2, 0, 0, 0, 0xf2, 0, 13, 0, 25, 18], .new⟩,
    ⟨[0, 0, 0, 0, 0xf1, 0, 3, 0, 7], .new⟩] [] (by simp [hsent]) 0
    (List.forall_mem_cons.2 ⟨by decide, List.forall_mem_singleton.2 (by decide)⟩) [2, 0]
    (by decide) (by decide)
    (List.forall_mem_cons.2 ⟨⟨by decide, by decide, _, List.mem_cons_self, by decide⟩,
      List.forall_mem_singleton.2
        ⟨by decide, by decide, _, List.mem_cons_of_mem _ List.mem_cons_self, by decide⟩⟩)
  refine ⟨fec, fec', wire, hnew, hrun, N, fun n hn => ?_⟩
  obtain ⟨outs, peer', hcalls, hk⟩ := hN n hn
  obtain ⟨b0, hb0, hm0⟩ := hk 0 (by decide)
  obtain ⟨b1, hb1, hm1⟩ := hk 1 (by decide)
  simp only [Nat.zero_mul, Nat.zero_add, List.getElem?_cons_zero, List.getElem?_cons_succ,
    Option.some.injEq] at hb0 hb1
  exact ⟨outs, peer', hcalls, hb0 ▸ hm0, hb1 ▸ hm1⟩

end Faketcp
