import TcpRaw.FecV2.Proof.Refine

/-!
# After the sequence ids wrap

A sender's ids start at zero again after `pawsOf n` packets, and with them the numbers of the
blocks. The decoder keeps the number of the latest block (`minShardId`) across the wrap and compares
block numbers, not ids: what a sender sends after the wrap is of an earlier block to it, until the
numbers have caught up (`late_step`). All of it is dropped, without an error.
-/

namespace Fecv2

open GoRt Erasure Collector
open Faketcp (blockShard blockOf packet flagOf)

section
variable {rs : Nat → Nat → Option (Codec UInt8)} {codec : Codec UInt8} {d p : Nat} {ps : List Bytes}
  {dec : FecDecoder} {c : State}

/-- Packet `k` of the sender, whose id is of a block before block `M`. -/
def ArrivesLate (codec : Codec UInt8) (d p : Nat) (ps : List Bytes) (M : Nat) (a : Arrival) :
    Prop :=
  ∃ k, k % pawsOf (d + p) / (d + p) < M ∧ streamPacket codec d p ps k = some a.pkt.data

theorem toNat_wrapped {n : Nat} (h0 : 0 < n) (hn : n ≤ 65536) (k : Nat) :
    (UInt32.ofNat (k % pawsOf n)).toNat = k % pawsOf n :=
  UInt32.toNat_ofNat_of_lt' (Nat.lt_trans (mod_pawsOf_lt h0 hn k) (by decide))

/-- **A packet of an earlier block** is dropped, and the decoder collects what it collected. -/
theorem late_step (hlaw : codec.Lawful d p) (hpay : ∀ b ∈ ps, b.length + 8 ≤ mtuLimit)
    (h : Follows rs codec d p ps dec c) {a : Arrival} (ha : ArrivesLate codec d p ps c.block a)
    (snmp : Snmp) :
    ∃ dec' snmp', dec.decode rs snmp a.pkt a.buf = .ok ([], dec', snmp') ∧
      Follows rs codec d p ps dec' c := by
  obtain ⟨k, hk, hx⟩ := ha
  obtain ⟨shard, hshard, hpkt⟩ := Option.map_eq_some_iff.1 hx
  have h0 : 0 < d := h.data ▸ h.inv.sized.data_pos
  have hn : d + p ≤ 65536 := h.shardSize ▸ h.inv.sized.size_le
  have hsn := toNat_wrapped (show 0 < d + p by omega) hn k
  obtain ⟨out, dec', snmp', hok, hdec, -⟩ :=
    decode_ok h.inv hpkt.symm (blockShard_fits hlaw h0 hpay hshard) snmp a.buf
  have hsync : (dec.observe (flagOf d (k % (d + p)))
      (UInt32.ofNat (k % pawsOf (d + p)))).shouldTune = false := by
    rw [observe_sync, h.data, h.shardSize, hsn, mod_pawsOf_mod]
    exact ⟨h.sync, rfl⟩
  have hobs := h.observe hsync
  have hid := hobs.inv.sized.toNat_shardId (UInt32.ofNat (k % pawsOf (d + p)))
  rw [hobs.shardSize, hsn] at hid
  -- every other outcome is of a block that is not an earlier one
  have hlate : ∀ {m : Nat}, m = c.block → m ≤ k % pawsOf (d + p) / (d + p) → False := by omega
  cases hdec with
  | tuned ht =>
    rw [hsync] at ht
    cases ht
  | received _ hr =>
    cases hr with
    | late _ => exact ⟨_, snmp', hok, hobs⟩
    | duplicate _ hmin => exact (hlate hobs.block (hid ▸ hmin)).elim
    | stored _ hmin => exact (hlate hobs.block (hid ▸ hmin)).elim
    | complete _ hmin => exact (hlate hobs.block (hid ▸ hmin)).elim

theorem decodeAll_late (hlaw : codec.Lawful d p) (hpay : ∀ b ∈ ps, b.length + 8 ≤ mtuLimit)
    {arrivals : List Arrival} (harr : ∀ a ∈ arrivals, ArrivesLate codec d p ps c.block a)
    (h : Follows rs codec d p ps dec c) (snmp : Snmp) :
    ∃ dec' snmp', FecDecoder.decodeAll rs arrivals dec snmp =
        .ok (List.replicate arrivals.length [], dec', snmp') ∧ Follows rs codec d p ps dec' c := by
  induction arrivals generalizing dec snmp with
  | nil => exact ⟨dec, snmp, rfl, h⟩
  | cons a arrivals ih =>
    obtain ⟨dec1, snmp1, hok, h1⟩ := late_step hlaw hpay h (harr a (by simp)) snmp
    obtain ⟨dec2, snmp2, hrest, h2⟩ := ih (fun a' ha' => harr a' (by simp [ha'])) h1 snmp1
    refine ⟨dec2, snmp2, ?_, h2⟩
    rw [FecDecoder.decodeAll, hok, ok_bind]
    dsimp only
    rw [hrest]
    rfl

/-- **A sender is not heard after the wrap.** Once any packet `k₀` of a sender has arrived, in
whatever run before the sequence ids wrap, every packet that the sender sends in the blocks after
the wrap, up to the number of the block of `k₀`, is dropped: the calls return nothing, whatever is
lost or arrives. -/
theorem deaf_after_wrap (hlim : Faketcp.ShardLimit rs) (hrs : rs d p = some codec)
    (hlaw : codec.Lawful d p) (h0 : 0 < d) (hp : 0 < p) (hpay : ∀ b ∈ ps, b.length + 8 ≤ mtuLimit)
    {arrivals wrapped : List Arrival} {ks : List Nat}
    (harr : List.Forall₂ (Carries codec d p ps) arrivals ks) {k₀ : Nat} (hk₀ : k₀ ∈ ks)
    (hwrapped : ∀ a ∈ wrapped, ∃ k, pawsOf (d + p) ≤ k ∧
      k < pawsOf (d + p) + k₀ / (d + p) * (d + p) ∧ streamPacket codec d p ps k = some a.pkt.data)
    (snmp : Snmp) :
    ∃ dec dec1 dec2 outs snmp1 snmp2, newFECDecoder rs d p = some dec ∧
      FecDecoder.decodeAll rs arrivals dec snmp = .ok (outs, dec1, snmp1) ∧
      FecDecoder.decodeAll rs wrapped dec1 snmp1 =
        .ok (List.replicate wrapped.length [], dec2, snmp2) ∧
      dec2.minShardId = dec1.minShardId := by
  have hn := hlim d p codec hrs
  obtain ⟨dec, hnew, h⟩ := follows_new hlim hrs h0 hp ps
  obtain ⟨dec1, snmp1, hok, h1⟩ := decodeAll_follows hlaw hpay harr h snmp
  have hblock := div_le_block_run (c := ⟨0, []⟩) d (d + p) hk₀
  obtain ⟨dec2, snmp2, hok2, h2⟩ := decodeAll_late hlaw hpay (fun a ha => by
    obtain ⟨k, hlo, hhi, hx⟩ := hwrapped a ha
    refine ⟨k, Nat.lt_of_lt_of_le ?_ hblock, hx⟩
    have hle : k % pawsOf (d + p) ≤ k - pawsOf (d + p) := by
      rw [Nat.mod_eq_sub_mod hlo]
      exact Nat.mod_le _ _
    rw [Nat.div_lt_iff_lt_mul (by omega)]
    omega) h1 snmp1
  exact ⟨dec, dec1, dec2, _, snmp1, snmp2, hnew, hok, hok2,
    UInt32.toNat_inj.1 (by rw [h2.block, h1.block])⟩

end

/-- The packet that a sender with blocks of three sends first after the wrap, once a packet of its
second block has arrived. -/
theorem deaf_after_wrap_rs21 :
    ∃ dec dec1 dec2 outs snmp1 snmp2, newFECDecoder Faketcp.newRs21 2 1 = some dec ∧
      FecDecoder.decodeAll Faketcp.newRs21
        [⟨Slice.ofList [3, 0, 0, 0, 0xf1, 0, 3, 0, 7], PoolBuf.new⟩] dec newSnmp =
          .ok (outs, dec1, snmp1) ∧
      FecDecoder.decodeAll Faketcp.newRs21
        [⟨Slice.ofList [0, 0, 0, 0, 0xf1, 0, 3, 0, 7], PoolBuf.new⟩] dec1 snmp1 =
        .ok ([[]], dec2, snmp2) := by
  have hblock : ∀ B, B ≤ 1431655765 → blockOf 2 B (List.replicate 2863311532 [7]) = [[7], [7]] := by
    intro B hB
    rw [blockOf, List.drop_replicate, List.take_replicate, Nat.min_eq_left (by omega)]
    rfl
  obtain ⟨dec, dec1, dec2, outs, snmp1, snmp2, hnew, hok, hok2, -⟩ :=
    deaf_after_wrap Faketcp.shardLimit_rs21 (show Faketcp.newRs21 2 1 = some Faketcp.rs21 from rfl)
      Faketcp.rs21_lawful (by decide) (by decide)
      (show ∀ b ∈ List.replicate 2863311532 [7], b.length + 8 ≤ mtuLimit from fun b hb => by
        rw [List.eq_of_mem_replicate hb]
        decide)
      (show List.Forall₂ (Carries Faketcp.rs21 2 1 (List.replicate 2863311532 [7]))
          [⟨Slice.ofList [3, 0, 0, 0, 0xf1, 0, 3, 0, 7], PoolBuf.new⟩] [3] from
        .cons ⟨by decide, by rw [streamPacket, hblock _ (by decide)]; decide +kernel⟩ .nil)
      (List.mem_singleton.2 rfl)
      (show ∀ a ∈ ([⟨Slice.ofList [0, 0, 0, 0, 0xf1, 0, 3, 0, 7], PoolBuf.new⟩] :
          List Arrival), _ from
        List.forall_mem_singleton.2 ⟨pawsOf 3, by decide, by decide, by
          rw [streamPacket, hblock _ (by decide)]; decide +kernel⟩) newSnmp
  exact ⟨dec, dec1, dec2, outs, snmp1, snmp2, hnew, hok, hok2⟩

end Fecv2
