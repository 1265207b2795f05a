import TcpRaw.Fec.Proof.Hostile
import TcpRaw.Fec.Proof.Wrap

/-!
# The receive queue where sequence ids wrap

`rx_invariant`: `Decode` is called with packets of a stretch of fewer than `2 ^ 30` ids of an
encoder's stream, in any order and with repetitions; the stretch may straddle the wrap of the ids.
Their flags, data and buffers are any. Between the calls the queue is in the cyclic order of the
ids, without repetitions, the packets of a block are contiguous, and no block has `d` of them
(`RxInvariant`). The search range of a call holds the block of the packet (`SearchCovers`).

Both are `InOrder` of the positions in the stretch (`placed_stretch`), said in the code's terms. The
queue stays so (`FecDecoder.Tracks.decode`), because a block that reaches `d` packets is freed as a
whole.
-/

namespace Faketcp

open GoRt Erasure Keyed

/-- The receive queue between calls, for `d` data shards in blocks of `n`. -/
structure RxInvariant (d n : Nat) (rx : List FecPacket) : Prop where
  increasing : rx.Pairwise fun q r => 0 < itimediff r.seqid q.seqid
  nodup : (rx.map FecPacket.seqid).Nodup
  contiguous : ∀ (i j k : Nat) (q r s : FecPacket), i ≤ j → j ≤ k →
    rx[i]? = some q → rx[j]? = some r → rx[k]? = some s →
    shardBegin (UInt32.ofNat n) q.seqid = shardBegin (UInt32.ofNat n) s.seqid →
    shardBegin (UInt32.ofNat n) r.seqid = shardBegin (UInt32.ofNat n) q.seqid
  few : ∀ b, rx.countP (fun q => shardBegin (UInt32.ofNat n) q.seqid = b) < d

/-- The search range of a call with `pkt` holds every packet of its block in the queue. -/
def SearchCovers (dec : FecDecoder) (pkt : FecPacket) : Prop :=
  ∀ i rx, insertionIndex dec.rx pkt.seqid dec.rx.length = .ok (some i) →
    insertRx dec.rx i pkt = .ok rx →
    ∀ (j : Nat) (q : FecPacket), rx[j]? = some q →
      shardBegin (UInt32.ofNat dec.shardSize) q.seqid =
        shardBegin (UInt32.ofNat dec.shardSize) pkt.seqid →
      searchBegin (UInt32.ofNat dec.shardSize) pkt.seqid i ≤ j ∧
        j ≤ searchEnd dec.shardSize (searchBegin (UInt32.ofNat dec.shardSize) pkt.seqid i) rx.length

section
variable {d n k₀ m : Nat} (h0 : 0 < n) (hn : n ≤ 256) (hm : m < 2 ^ 30)
include h0 hn hm

theorem InOrder.rxInvariant {rx : List FecPacket} (hd : 0 < d)
    (h : InOrder n d (fun q => position n k₀ q.seqid) (InStretch n k₀ m) rx) :
    RxInvariant d n rx := by
  have hblock := fun q (hq : q ∈ rx) r (hr : r ∈ rx) =>
    shardBegin_stretch h0 hn hm (h.placed q hq) (h.placed r hr)
  constructor
  case increasing =>
    exact h.ordered.imp_of_mem fun hq hr hlt =>
      ((placed_stretch h0 hn hm).lt_iff (h.placed _ hr) (h.placed _ hq)).2 hlt
  case nodup =>
    exact List.pairwise_map.2 (h.ordered.imp fun hlt he =>
      Nat.ne_of_lt hlt (congrArg (position n k₀) he))
  case contiguous =>
    intro i j k q r s hij hjk hq hr hs hqs
    have hqr := Nat.div_le_div_right (c := n) (Nat.le_of_add_right_le (h.ordered.add_le hij hq hr))
    have hrs := Nat.div_le_div_right (c := n) (Nat.le_of_add_right_le (h.ordered.add_le hjk hr hs))
    rw [hblock _ (List.mem_of_getElem? hq) _ (List.mem_of_getElem? hs)] at hqs
    rw [hblock _ (List.mem_of_getElem? hr) _ (List.mem_of_getElem? hq)]
    omega
  case few =>
    intro b
    by_cases hex : ∃ q ∈ rx, shardBegin (UInt32.ofNat n) q.seqid = b
    · obtain ⟨q, hq, rfl⟩ := hex
      have hsame : rx.countP (fun r => shardBegin (UInt32.ofNat n) r.seqid =
          shardBegin (UInt32.ofNat n) q.seqid) =
          rx.countP fun r => position n k₀ r.seqid / n = position n k₀ q.seqid / n :=
        List.countP_congr fun r hr => by simpa using hblock r hr q hq
      rw [hsame]
      exact h.few _
    · rw [List.countP_eq_zero.2 fun q hq => by simpa using fun he => hex ⟨q, hq, he⟩]
      exact hd

theorem InOrder.searchCovers {dec : FecDecoder} (hsize : dec.shardSize = n)
    (h : InOrder n d (fun q => position n k₀ q.seqid) (InStretch n k₀ m) dec.rx) {pkt : FecPacket}
    (hp : InStretch n k₀ m pkt) : SearchCovers dec pkt := by
  intro i rx hidx hins j q hj hb
  have hsc : ScanAt dec.rx pkt.seqid i := by
    rcases insertionIndex_cases dec.rx pkt.seqid with ⟨hi, -⟩ | ⟨i', hi, hsc⟩
    · rw [hi] at hidx
      cases hidx
    · rw [hi] at hidx
      cases hidx
      exact hsc
  rw [insertRx_ok hsc.le] at hins
  cases hins
  rw [hsize] at hb ⊢
  have hpl : Placed n (fun q => position n k₀ q.seqid) (InStretch n k₀ m) := placed_stretch h0 hn hm
  refine hpl.search_index h0 (hpl.ordered_insertAt h.ordered h.placed hp hsc)
    (getElem?_insertAt hsc.le) hp hj ?_
  rwa [shardBegin_stretch h0 hn hm (h.placed_insertAt hp q (List.mem_of_getElem? hj)) hp] at hb

end

/-! ## Runs -/

/-- The decoder between calls. -/
structure FecDecoder.Tracks (d n k₀ m : Nat) (dec : FecDecoder) : Prop where
  dataShards : dec.dataShards = d
  shardSize : dec.shardSize = n
  inOrder : InOrder n d (fun q => position n k₀ q.seqid) (InStretch n k₀ m) dec.rx

/-- **One call** keeps the queue in order. -/
theorem FecDecoder.Tracks.decode {d n k₀ m : Nat} (hd : 0 < d) (h0 : 0 < n) (hn : n ≤ 256)
    (hm : m < 2 ^ 30) {dec dec' : FecDecoder} (h : dec.Tracks d n k₀ m) {pkt : FecPacket}
    (hp : InStretch n k₀ m pkt) {out : List Bytes} (hdec : dec.decode pkt = .ok (out, dec')) :
    dec'.Tracks d n k₀ m := by
  have hsize : (UInt32.ofNat dec.shardSize).toNat = dec.shardSize := by
    rw [h.shardSize, UInt32.toNat_ofNat']
    omega
  rcases decode_queue (by rw [h.shardSize]; exact h0) hsize hdec with
    ⟨-, rfl⟩ | ⟨i, ts, a, hsc, hG, rfl⟩
  · exact h
  · obtain ⟨hnext, -⟩ := (placed_stretch h0 hn hm).step h0 hd h.shardSize h.dataShards h.inOrder hp
      (fun q hq => pastBlock_stretch h0 hn hm hp hq) hsc hG
    exact ⟨h.dataShards, h.shardSize, hnext.sublist (limited_sublist dec _)⟩

/-- **A run of calls.** -/
theorem FecDecoder.Tracks.decodeAll {d n k₀ m : Nat} (hd : 0 < d) (h0 : 0 < n) (hn : n ≤ 256)
    (hm : m < 2 ^ 30) {pkts : List FecPacket} {dec dec' : FecDecoder} (h : dec.Tracks d n k₀ m)
    (hp : ∀ q ∈ pkts, InStretch n k₀ m q) (hall : dec.decodeAll pkts = .ok dec') :
    dec'.Tracks d n k₀ m := by
  induction pkts generalizing dec with
  | nil =>
    cases hall
    exact h
  | cons pkt pkts ih =>
    obtain ⟨⟨out, dec₁⟩, hdec, hall⟩ := bind_ok hall
    exact ih (h.decode hd h0 hn hm (hp pkt List.mem_cons_self) hdec)
      (fun q hq => hp q (List.mem_cons_of_mem _ hq)) hall

/-- **The receive queue.** `Decode` is called with packets whose sequence ids are among fewer than
`2 ^ 30` consecutive ones of an encoder's stream, in any order and with repetitions. After every
call that returns the queue is in strict cyclic order, the packets of a block are contiguous, and no
block has `d` of them; in the next call the search range holds the block of the packet. With buffers
of the pool every call returns. -/
theorem rx_invariant {rs : Nat → Nat → Option (Codec UInt8)} {d p rxlimit : Nat}
    {codec : Codec UInt8} (hrs : rs d p = some codec) (hd : 1 ≤ d) (hp : 1 ≤ p)
    (hsize : d + p ≤ 256) (hlimit : d + p ≤ rxlimit) (k₀ : Nat) {m : Nat} (hm : m < 2 ^ 30)
    (pkts : List FecPacket)
    (hids : ∀ q ∈ pkts, ∃ k, k₀ ≤ k ∧ k < k₀ + m ∧ q.seqid = streamId (d + p) k) :
    ∃ dec, newFECDecoder rs rxlimit d p = some dec ∧
      ∀ pre post, pkts = pre ++ post →
        ((∀ q ∈ pre, q.data.cap = mtuLimit) → Returns (dec.decodeAll pre)) ∧
        ∀ dec', dec.decodeAll pre = .ok dec' →
          RxInvariant d (d + p) dec'.rx ∧
            ∀ pkt rest, post = pkt :: rest → SearchCovers dec' pkt := by
  have h0 : 0 < d + p := by omega
  obtain ⟨dec, hnew, hholds, hdata, hshard, hrx⟩ :=
    newFECDecoder_holds hrs hd hp (by omega : d + p ≤ 65536) hlimit
  refine ⟨dec, hnew, fun pre post hpre => ⟨fun hcap => ?_, fun dec' hall => ?_⟩⟩
  · obtain ⟨dec', hall, -⟩ := hholds.decodeAll hcap
    exact ⟨dec', hall⟩
  · have hempty : InOrder (d + p) d (fun q => position (d + p) k₀ q.seqid)
        (InStretch (d + p) k₀ m) dec.rx := by
      rw [hrx]
      exact ⟨List.Pairwise.nil, fun q hq => absurd hq List.not_mem_nil, fun _ => hd⟩
    have h := FecDecoder.Tracks.decodeAll hd h0 hsize hm ⟨hdata, hshard, hempty⟩
      (fun q hq => hids q (hpre ▸ List.mem_append_left post hq)) hall
    refine ⟨h.inOrder.rxInvariant h0 hsize hm hd, fun pkt rest hpost => ?_⟩
    exact h.inOrder.searchCovers h0 hsize hm h.shardSize
      (hids pkt (by rw [hpre, hpost]; simp))

/-- Packets on both sides of the wrap, in blocks of three: the last packet before it comes after one
behind it, and again later. -/
theorem rx_invariant_wrap :
    ∃ dec, newFECDecoder newRs21 3 2 1 = some dec ∧
      ∀ pre post, [⟨2, typeFEC, .ofList PoolBuf.new.arr⟩,
          ⟨4294967291, typeFEC, .ofList PoolBuf.new.arr⟩, ⟨0, typeData, .ofList PoolBuf.new.arr⟩,
          ⟨4294967291, 7, .ofList PoolBuf.new.arr⟩] = pre ++ post →
        ((∀ q ∈ pre, q.data.cap = mtuLimit) → Returns (dec.decodeAll pre)) ∧
        ∀ dec', dec.decodeAll pre = .ok dec' →
          RxInvariant 2 3 dec'.rx ∧ ∀ pkt rest, post = pkt :: rest → SearchCovers dec' pkt := by
  refine rx_invariant (show newRs21 2 1 = some rs21 from rfl) (by decide) (by decide) (by decide)
    (by decide) 4294967290 (m := 5) (by decide) _ fun q hq => ?_
  simp only [List.mem_cons, List.not_mem_nil, or_false] at hq
  rcases hq with rfl | rfl | rfl | rfl
  · exact ⟨4294967294, by decide, by decide, by decide⟩
  · exact ⟨4294967291, by decide, by decide, by decide⟩
  · exact ⟨4294967292, by decide, by decide, by decide⟩
  · exact ⟨4294967291, by decide, by decide, by decide⟩

end Faketcp
