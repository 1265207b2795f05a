import TcpRaw.FecV2.Proof.Encode
import TcpRaw.FecV2.Proof.Refine

/-!
# From the encoder to the decoder

The packets of an encoder's run, some of them lost, others repeated and all of them in any order,
reach a decoder with the same parameters. What its calls return are payloads that were sent, behind
their size and padded with zeros (`dataShard_number`, `sent_of_returned`); a payload whose packet is
lost is returned if and only if enough packets of its block arrive in time.
-/

namespace Fecv2

open GoRt Erasure Collector
open Faketcp (blockShard blockOf packet sized padTo blockLen wireSeqid wireSeqid_packet
  length_of_blockShard length_blockOf_le getElem?_blockOf div_mod_of_eq)

section
variable {codec : Codec UInt8} {d p o : Nat} {ps : List Bytes}

theorem number_div_mod (h0 : 0 < d) (i : Nat) :
    numberOf d p i / (d + p) = i / d ∧ numberOf d p i % (d + p) = i % d :=
  div_mod_of_eq rfl (Nat.lt_of_lt_of_le (Nat.mod_lt i h0) (Nat.le_add_right d p))

theorem dataShard_number (h0 : 0 < d) {i : Nat} {b : Bytes} (hi : ps[i]? = some b) :
    ∃ m, dataShard d p ps (numberOf d p i) = sized b ++ List.replicate m 0 := by
  obtain ⟨hdiv, hmod⟩ := number_div_mod (p := p) h0 i
  have hb : (blockOf d (i / d) ps)[i % d]? = some b := by
    rw [getElem?_blockOf (Nat.mod_lt i h0), Nat.div_add_mod, hi]
  rw [dataShard, hdiv, hmod, List.getD_eq_getElem?_getD, hb]
  exact ⟨_, rfl⟩

theorem number_lt_of_sent (h0 : 0 < d) (hp : 0 < p) {i k : Nat} {c : Bool}
    (hk : k ∈ sentBy d p i c) : k < (i / d + 1) * (d + p) := by
  have hi := Nat.mod_lt i h0
  rw [Nat.add_one_mul]
  rcases List.mem_cons.1 hk with rfl | hk
  · unfold numberOf
    omega
  · split at hk
    · obtain ⟨j, hj, rfl⟩ := List.mem_map.1 hk
      have := List.mem_range.1 hj
      omega
    · cases hk

theorem AreNumbered.mem {xs : List Bytes} {ks : List Nat} (h : AreNumbered codec d p ps xs ks)
    {x : Bytes} (hx : x ∈ xs) : ∃ k ∈ ks, streamPacket codec d p ps k = some x := by
  unfold AreNumbered at h
  induction h with
  | nil => cases hx
  | cons hxk _ ih =>
    rcases List.mem_cons.1 hx with rfl | hx
    · exact ⟨_, List.mem_cons_self, hxk⟩
    · obtain ⟨k, hk, he⟩ := ih hx
      exact ⟨k, List.mem_cons_of_mem _ hk, he⟩

theorem wireSeqid_streamPacket {k : Nat} {x : Bytes} (hk : k < pawsOf (d + p))
    (h : streamPacket codec d p ps k = some x) : wireSeqid x = k := by
  obtain ⟨shard, -, rfl⟩ := Option.map_eq_some_iff.1 h
  rw [wireSeqid_packet, toNat_id hk]

theorem block_full {B : Nat} {S : Finset Nat} (hcard : d ≤ S.card)
    (hS : ∀ k ∈ S, k / (d + p) = B ∧ ∃ x, streamPacket codec d p ps k = some x) (h0 : 0 < d) :
    (blockOf d B ps).length = d := by
  by_contra hfull
  -- otherwise only the positions below `d - 1` have packets
  have hpos : ∀ k ∈ S, k % (d + p) ∈ Finset.range (d - 1) := by
    intro k hk
    obtain ⟨hdiv, x, hx⟩ := hS k hk
    obtain ⟨shard, hshard, -⟩ := Option.map_eq_some_iff.1 hx
    rw [Finset.mem_range]
    by_contra hge
    rw [hdiv] at hshard
    exact hfull (length_of_blockShard (length_blockOf_le d B ps) hshard (by omega))
  have hinj : Set.InjOn (· % (d + p)) (S : Set Nat) := by
    intro k hk k' hk' he
    rw [← Nat.div_add_mod k (d + p), ← Nat.div_add_mod k' (d + p), (hS k hk).1, (hS k' hk').1]
    exact congrArg _ he
  have := Finset.card_le_card_of_injOn _ hpos hinj
  rw [Finset.card_range] at this
  omega

/-- **What is given out was sent**: it is the data packet of a payload. -/
theorem sent_of_returned (h0 : 0 < d) {ks : List Nat}
    (hks : ∀ k ∈ ks, ∃ x, streamPacket codec d p ps k = some x) {k : Nat}
    (hk : k ∈ (State.run d (d + p) ks ⟨0, []⟩).1.flatten) :
    ∃ i < ps.length, k = numberOf d p i := by
  obtain ⟨hw, hcard⟩ := card_of_mem_run (Nat.le_add_right d p) ⟨List.nodup_nil, by simp⟩ hk
  have hfull := block_full (B := k / (d + p)) hcard (fun k' hk' => by
    simp only [List.nil_append, List.mem_toFinset, List.mem_filter, decide_eq_true_eq] at hk'
    exact ⟨hk'.2, hks k' hk'.1⟩) h0
  obtain ⟨j, hj, hkj⟩ := mem_wanted.1 hw
  obtain ⟨hdiv, hmod⟩ := div_mod_of_eq (n := d) (B := k / (d + p)) rfl hj
  refine ⟨k / (d + p) * d + j, ?_, ?_⟩
  · rw [blockOf, List.length_take, List.length_drop] at hfull
    rw [Nat.mul_comm]
    omega
  · rw [numberOf, hdiv, hmod, hkj]

/-- **Lost payloads.** An encoder with `d` data and `p` parity shards runs up to the wrap of its ids
at the latest, on packets of `o + 8` to `mtuLimit` bytes. They reach a decoder with the same
parameters in any order, some of them never and others repeatedly. Then no call panics, and each
call returns data shards of payloads that were sent. The payload of a packet that never arrives is
returned if and only if as many distinct packets of its block arrive, before the first one of a
later block, as it has data shards. -/
theorem lost_payloads_return {rs : Nat → Nat → Option (Codec UInt8)} (hlim : Faketcp.ShardLimit rs)
    (hrs : rs d p = some codec) (hlaw : codec.Lawful d p) (h0 : 0 < d) (hp : 0 < p)
    (ho : o + 8 ≤ mtuLimit) {calls : List Call}
    (hcalls : ∀ c ∈ calls, o + 8 ≤ c.b.len ∧ c.b.len ≤ mtuLimit)
    (hwrap : calls.length ≤ pawsOf (d + p) / (d + p) * d) (snmp : Snmp) :
    ∃ enc outs enc', newFECEncoder rs d p o = some enc ∧
      FecEncoder.encodeAll calls enc snmp = .ok (outs, enc', snmp) ∧
      ∀ arrivals : List Arrival, (∀ a ∈ arrivals, ∃ out ∈ outs, a.pkt.data ∈ wire o out) →
        ∃ dec dec' snmp', ∃ nums : List (List Nat), newFECDecoder rs d p = some dec ∧
          FecDecoder.decodeAll rs arrivals dec snmp =
            .ok (nums.map (List.map (dataShard d p (calls.map fun c => payloadOf o c.b))),
              dec', snmp') ∧
          (∀ k ∈ nums.flatten, ∃ i call m, calls[i]? = some call ∧ k = numberOf d p i ∧
            dataShard d p (calls.map fun c => payloadOf o c.b) k =
              sized (payloadOf o call.b) ++ List.replicate m 0) ∧
          ∀ i < calls.length, (∀ a ∈ arrivals, wireSeqid a.pkt.data ≠ numberOf d p i) →
            (numberOf d p i ∈ nums.flatten ↔
              d ≤ (inTime (d + p) (i / d)
                (arrivals.map fun a => wireSeqid a.pkt.data)).toFinset.card) := by
  have hn := hlim d p codec hrs
  obtain ⟨enc, hnew, -, hat⟩ := streamAt_new (o := o) hrs h0 hp hn (by omega)
  obtain ⟨outs, enc', hrun, hlen, hall⟩ :=
    encodeAll_stream hlaw.encodes h0 hp hn snmp calls hat hcalls
  refine ⟨enc, outs, enc', hnew, hrun, fun arrivals harr => ?_⟩
  -- what arrives are packets of the stream, with their numbers as sequence ids
  have hcarries : ∀ a ∈ arrivals,
      Carries codec d p (calls.map fun c => payloadOf o c.b) a (wireSeqid a.pkt.data) := by
    intro a ha
    obtain ⟨out, hout, hx⟩ := harr a ha
    obtain ⟨i, hi⟩ := List.mem_iff_getElem?.1 hout
    have hlt : i < calls.length := hlen ▸ (List.getElem?_eq_some_iff.1 hi).1
    obtain ⟨t, P, hi', -, hnum⟩ := hall i calls[i] (List.getElem?_eq_getElem hlt)
    obtain rfl : out = (t, P) := Option.some.inj (hi.symm.trans hi')
    obtain ⟨k, hk, hkx⟩ := hnum.mem hx
    have hdiv : i / d + 1 ≤ pawsOf (d + p) / (d + p) :=
      (Nat.div_lt_iff_lt_mul h0).2 (Nat.lt_of_lt_of_le hlt hwrap)
    have hkw : k < pawsOf (d + p) := by
      rw [List.length_nil, Nat.zero_add] at hk
      exact Nat.lt_of_lt_of_le (number_lt_of_sent h0 hp hk)
        (Nat.le_trans (Nat.mul_le_mul_right _ hdiv) (Nat.div_mul_le_self _ _))
    rw [List.nil_append] at hkx
    rw [wireSeqid_streamPacket hkw hkx]
    exact ⟨hkw, hkx⟩
  have hrun' : List.Forall₂ (Carries codec d p (calls.map fun c => payloadOf o c.b)) arrivals
      (arrivals.map fun a => wireSeqid a.pkt.data) :=
    List.forall₂_map_right_iff.2 (List.forall₂_same.2 hcarries)
  obtain ⟨dec, hdec, h⟩ := follows_new hlim hrs h0 hp (calls.map fun c => payloadOf o c.b)
  obtain ⟨dec', snmp', hok, -⟩ := decodeAll_follows hlaw (fun b hb => by
    obtain ⟨c, hc, rfl⟩ := List.mem_map.1 hb
    have := hcalls c hc
    rw [payloadOf, List.length_drop, Slice.length_data]
    omega) hrun' h snmp
  refine ⟨dec, dec', snmp', _, hdec, hok, fun k hk => ?_, fun i hi hlost => ?_⟩
  · obtain ⟨i, hi, rfl⟩ := sent_of_returned h0 (fun k hk => by
      obtain ⟨a, ha, rfl⟩ := List.mem_map.1 hk
      exact ⟨_, (hcarries a ha).2⟩) hk
    rw [List.length_map] at hi
    have hget : (calls.map fun c => payloadOf o c.b)[i]? = some (payloadOf o calls[i].b) := by
      rw [List.getElem?_map, List.getElem?_eq_getElem hi]
      rfl
    obtain ⟨m, hm⟩ := dataShard_number (p := p) h0 hget
    exact ⟨i, calls[i], m, List.getElem?_eq_getElem hi, rfl, hm⟩
  · refine mem_run_iff h0 (Nat.le_add_right d p)
      (mem_wanted.2 ⟨i % d, Nat.mod_lt i h0, rfl⟩) fun hm => ?_
    obtain ⟨a, ha, he⟩ := List.mem_map.1 hm
    exact hlost a ha he

end

/-- A block of two payloads whose second packet is lost, and whose parity packet comes first. -/
theorem lost_payloads_return_rs21 :
    ∃ enc outs enc', newFECEncoder Faketcp.newRs21 2 1 0 = some enc ∧
      FecEncoder.encodeAll [⟨Slice.ofList (List.replicate 8 0 ++ [7]), 100, 1⟩,
        ⟨Slice.ofList (List.replicate 8 0 ++ [8, 9]), 100, 2⟩] enc newSnmp =
          .ok (outs, enc', newSnmp) ∧
      ∃ dec dec' snmp', ∃ nums : List (List Nat), newFECDecoder Faketcp.newRs21 2 1 = some dec ∧
        FecDecoder.decodeAll Faketcp.newRs21
          [⟨Slice.ofList [2, 0, 0, 0, 0xf2, 0, 13, 0, 25, 18], PoolBuf.new⟩,
            ⟨Slice.ofList [0, 0, 0, 0, 0xf1, 0, 3, 0, 7], PoolBuf.new⟩] dec newSnmp =
          .ok (nums.map (List.map (dataShard 2 1 [[7], [8, 9]])), dec', snmp') ∧
        1 ∈ nums.flatten := by
  obtain ⟨enc, outs, enc', hnew, hrun, hall⟩ :=
    lost_payloads_return (o := 0) Faketcp.shardLimit_rs21
      (show Faketcp.newRs21 2 1 = some Faketcp.rs21 from rfl) Faketcp.rs21_lawful (by decide)
      (by decide) (by decide)
      (show ∀ c ∈ ([⟨Slice.ofList (List.replicate 8 0 ++ [7]), 100, 1⟩,
          ⟨Slice.ofList (List.replicate 8 0 ++ [8, 9]), 100, 2⟩] : List Call),
        0 + 8 ≤ c.b.len ∧ c.b.len ≤ mtuLimit by decide) (by decide) newSnmp
  have hsent : ((newFECEncoder Faketcp.newRs21 2 1 0).bind fun enc =>
      (FecEncoder.encodeAll [⟨Slice.ofList (List.replicate 8 0 ++ [7]), 100, 1⟩,
        ⟨Slice.ofList (List.replicate 8 0 ++ [8, 9]), 100, 2⟩] enc newSnmp).toOption.map
        (·.1.map (wire 0))) =
      some [[[0, 0, 0, 0, 0xf1, 0, 3, 0, 7]],
        [[1, 0, 0, 0, 0xf1, 0, 4, 0, 8, 9], [2, 0, 0, 0, 0xf2, 0, 13, 0, 25, 18]]] := by
    decide +kernel
  rw [hnew, Option.bind_some, hrun] at hsent
  replace hsent : outs.map (wire 0) = _ := Option.some.inj hsent
  obtain ⟨dec, dec', snmp', nums, hdec, hok, -, hlost⟩ :=
    hall [⟨Slice.ofList [2, 0, 0, 0, 0xf2, 0, 13, 0, 25, 18], PoolBuf.new⟩,
      ⟨Slice.ofList [0, 0, 0, 0, 0xf1, 0, 3, 0, 7], PoolBuf.new⟩] fun a ha => by
        have hmem : ∃ xs ∈ outs.map (wire 0), a.pkt.data ∈ xs := by
          rw [hsent]
          rcases List.mem_pair.1 ha with rfl | rfl <;> simp
        simpa using hmem
  exact ⟨enc, outs, enc', hnew, hrun, dec, dec', snmp', nums, hdec, hok,
    (hlost 1 (by decide) (by decide +kernel)).2 (by decide +kernel)⟩

end Fecv2
