import TcpRaw.Fec.Proof.Hostile
import TcpRaw.Fec.Proof.Ids

/-!
# A second copy of a packet

The decoder drops a packet that is in its queue, but `Fec.decode` has taken the payload of a data
packet before; and a packet that has left the queue, freed with its block or evicted, is inserted
like a new one. `duplicate_copies` says what a second copy does in each of these cases:

* a copy of a data packet is delivered again;
* a copy of a parity packet is invisible while the first one is queued. Otherwise it restores
  payloads a second time, if the queue holds `d - 1` packets of its block, or once further packets
  of the block arrive; it is invisible as long as neither happens and nothing is evicted on its
  account (`HarmlessCopy`).

All of it is about the block set that the decoder is on a stream: with and without the copy the
calls return the same if and only if the two runs of the block set do (`invisible_iff`).
-/

namespace Faketcp

open GoRt Erasure Keyed BlockSet

/-- The calls of `DecodeData` return the same with and without the copy between `pre` and `post`. -/
def Invisible (peer : Fec) (pre : List Arrival) (copy : Arrival) (post : List Arrival) : Prop :=
  ∀ n, ∃ outs peer₁ rest₁ peer₂ rest₂,
    Fec.decodeCalls n peer (pre ++ post) = .ok (outs, peer₁, rest₁) ∧
    Fec.decodeCalls n peer (pre ++ copy :: post) = .ok (outs, peer₂, rest₂)

/-- When a copy of the parity packet `k` changes nothing; `s` are the ids in the queue and `later`
those of the arrivals after it. -/
inductive HarmlessCopy (d p : Nat) (s : Finset Nat) (k : Nat) (later : List Nat) : Prop
  /-- The first copy is queued. -/
  | queued (hmem : k ∈ s)
  /-- The queue is full of later packets, so the copy is evicted at once. -/
  | evicted (hfull : 3 * (d + p) ≤ s.card) (hmin : ∀ j ∈ s, k < j)
      (hfew : (mates (d + p) s k).card < d)
  /-- It completes nothing, and all that arrives is of later blocks. -/
  | passed (hfew : (mates (d + p) s k).card < d) (hlater : ∀ j ∈ later, k / (d + p) < j / (d + p))
  /-- There is room for it and all that arrives, and too little of that is of its block. -/
  | roomy (hroom : s.card + later.length < 3 * (d + p))
      (hfew : (mates (d + p) s k).card + later.countP (· / (d + p) = k / (d + p)) < d)

/-- What a copy of a packet does that arrives after `pre`, when the ids `s` are in the queue. -/
structure CopyEffects (d p : Nat) (ps sent : List Bytes) (peer : Fec) (pre : List Arrival)
    (s : Finset Nat) (copy : Arrival) : Prop where
  harmless : wireFlag copy.data = typeFEC → ∀ post, (∀ a ∈ post, a.data ∈ sent) →
    HarmlessCopy d p s (wireSeqid copy.data) (seqids post) → Invisible peer pre copy post
  /-- A data packet is delivered again. -/
  data : wireFlag copy.data = typeData → ¬ Invisible peer pre copy []
  /-- While the first one is queued, nothing that arrives makes up for that. -/
  data_queued : wireFlag copy.data = typeData → wireSeqid copy.data ∈ s →
    ∀ post, (∀ a ∈ post, a.data ∈ sent) → ¬ Invisible peer pre copy post
  /-- A parity packet that completes its block restores payloads of it again. -/
  completes : wireFlag copy.data = typeFEC → wireSeqid copy.data ∉ s →
    (∃ b ∈ blockOf d (wireSeqid copy.data / (d + p)) ps, b ≠ []) →
    d ≤ (mates (d + p) s (wireSeqid copy.data)).card → ¬ Invisible peer pre copy []
  /-- So does another one, if there is room and `d` packets of its block were sent. -/
  rejoins : wireFlag copy.data = typeFEC → wireSeqid copy.data ∉ s →
    (∃ b ∈ blockOf d (wireSeqid copy.data / (d + p)) ps, b ≠ []) → s.card + d ≤ 3 * (d + p) →
    ∀ block : Finset Nat, (∀ j ∈ block, j / (d + p) = wireSeqid copy.data / (d + p) ∧
      ∃ x ∈ sent, wireSeqid x = j) → d ≤ block.card →
    ∃ post, (∀ a ∈ post, a.data ∈ sent) ∧ ¬ Invisible peer pre copy post

/-! ## The two runs of the block set -/

section
variable {d p : Nat} {ps : List Bytes} {s : Finset Nat} {k : Nat} {later : List Nat}

theorem deliver_cons : deliver d p ps s (k :: later) =
    returned d (d + p) (ownPayload d p ps) (restoredBy d p ps) s k ++
      deliver d p ps (receiveId d p s k) later := rfl

theorem deliver_append (ks : List Nat) : deliver d p ps s (ks ++ later) =
    deliver d p ps s ks ++ deliver d p ps (ks.foldl (receiveId d p) s) later :=
  run_append ks later s

theorem receiveId_evicted (hfull : 3 * (d + p) ≤ s.card) (hmin : ∀ j ∈ s, k < j)
    (hfew : (mates (d + p) s k).card < d) : receiveId d p s k = s := by
  have hk : k ∉ s := fun h => Nat.lt_irrefl _ (hmin k h)
  rw [receiveId, receive, if_neg hk, settle_of_few hfew]
  ext j
  rw [mem_evict, Finset.card_insert_of_notMem hk, Finset.mem_insert]
  constructor
  · rintro ⟨rfl | hj, hsmaller⟩
    · obtain ⟨i, hi, hij⟩ := hsmaller (by omega)
      rcases Finset.mem_insert.1 hi with rfl | hi
      · exact absurd hij (Nat.lt_irrefl _)
      · exact absurd hij (Nat.lt_asymm (hmin i hi))
    · exact hj
  · intro hj
    exact ⟨.inr hj, fun _ => ⟨k, Finset.mem_insert_self _ _, hmin j hj⟩⟩

theorem agree_receiveId (hfew : (mates (d + p) s k).card < d) :
    Agree ((d + p) * (k / (d + p)) + (d + p) ≤ ·) (receiveId d p s k) s := by
  intro j hj
  by_cases hk : k ∈ s
  · rw [receiveId, receive_of_mem hk]
  · have hn : 0 < d + p := by
      have := Finset.card_pos.2 ⟨k, self_mem_mates (n := d + p) (s := s)⟩
      omega
    have hkj : k < j := by
      have := Nat.lt_mul_div_succ k hn
      rw [Nat.mul_succ] at this
      omega
    rw [receiveId, receive, if_neg hk, settle_of_few hfew, mem_evict, Finset.mem_insert,
      or_iff_right (Nat.ne_of_gt hkj)]
    exact and_iff_left fun _ => ⟨k, Finset.mem_insert_self _ _, hkj⟩

/-- **A harmless copy** returns nothing and makes no difference to what follows. -/
theorem deliver_harmless (hpar : streamPayload d p ps k = none) (hs : s.card ≤ 3 * (d + p))
    (h : HarmlessCopy d p s k later) : deliver d p ps s (k :: later) = deliver d p ps s later := by
  have hown : ownPayload d p ps k = [] := by rw [ownPayload, hpar, Option.toList_none]
  have hqueued : k ∈ s → deliver d p ps s (k :: later) = deliver d p ps s later := fun hk => by
    rw [deliver_cons, returned_of_mem _ _ hk, hown, receiveId, receive_of_mem hk, List.nil_append]
  have hquiet : (mates (d + p) s k).card < d →
      deliver d p ps s (k :: later) = deliver d p ps (receiveId d p s k) later := fun hfew => by
    rw [deliver_cons, returned_of_few _ _ hfew, hown, List.nil_append]
  cases h with
  | queued hk => exact hqueued hk
  | evicted hfull hmin hfew => rw [hquiet hfew, receiveId_evicted hfull hmin hfew]
  | passed hfew hlater =>
    rw [hquiet hfew]
    refine run_eq_of_later later (fun j hj i hi => ?_) (agree_receiveId hfew)
      (card_receive_le hs) hs
    have hlt := hlater j hj
    rw [← hi] at hlt
    have hn : 0 < d + p := Nat.pos_of_ne_zero fun h => by simp [h] at hlt
    exact (lt_div_iff_bounds hn).1 hlt
  | roomy hroom hfew =>
    by_cases hk : k ∈ s
    · exact hqueued hk
    · have hlt : (mates (d + p) s k).card < d := by omega
      have hcard := card_mates (n := d + p) hk
      rw [hquiet hlt, receiveId, receive_of_few hlt (by omega)]
      refine run_eq_of_room (B := k / (d + p)) later (fun j hj => ?_) ⟨?_, hfew⟩ ⟨?_, ?_⟩
      · rw [Finset.mem_insert]
        exact or_iff_right fun h => hj (by rw [h])
      · rw [Finset.card_insert_of_notMem hk]
        omega
      · omega
      · omega

theorem restoredBy_ne_nil {B : Nat} (hblk : (blockOf d B ps).length = d)
    (hpay : ∃ b ∈ blockOf d B ps, b ≠ []) (hs : s.card ≤ d) (hk : k ∈ s)
    (hpar : ∀ j < d, (d + p) * B + j ≠ k) : restoredBy d p ps B s ≠ [] := by
  obtain ⟨b, hb, hne⟩ := hpay
  have hlen : ¬ blockLen (blockOf d B ps) ≤ 2 := by
    have := length_le_blockLen hb
    have := List.length_pos_iff.2 hne
    omega
  rw [restoredBy, if_neg hlen, Ne, List.filterMap_eq_nil_iff]
  intro hnone
  -- all data packets of the block would be there, and the parity packet
  have hdata : ∀ j < d, (d + p) * B + j ∈ s := fun j hj => by
    by_contra hj'
    have := hnone j (List.mem_range.2 hj)
    rw [if_neg hj', List.getElem?_eq_none_iff, hblk] at this
    omega
  have hsub : insert k ((Finset.range d).image ((d + p) * B + ·)) ⊆ s := by
    intro i hi
    rcases Finset.mem_insert.1 hi with rfl | hi
    · exact hk
    · obtain ⟨j, hj, rfl⟩ := Finset.mem_image.1 hi
      exact hdata j (Finset.mem_range.1 hj)
  have hnew : k ∉ (Finset.range d).image ((d + p) * B + ·) := fun hi => by
    obtain ⟨j, hj, hjk⟩ := Finset.mem_image.1 hi
    exact hpar j (Finset.mem_range.1 hj) hjk
  have hcard := Finset.card_le_card hsub
  rw [Finset.card_insert_of_notMem hnew,
    Finset.card_image_of_injective _ (add_right_injective _), Finset.card_range] at hcard
  omega

theorem returned_completes {j : Nat} (hblk : (blockOf d (k / (d + p)) ps).length = d)
    (hpay : ∃ b ∈ blockOf d (k / (d + p)) ps, b ≠ []) (hj : j ∉ s) (hjk : j / (d + p) = k / (d + p))
    (hmates : (mates (d + p) s j).card = d) (hk : k ∈ mates (d + p) s j)
    (hpar : d ≤ k % (d + p)) :
    (ownPayload d p ps j).length <
      (returned d (d + p) (ownPayload d p ps) (restoredBy d p ps) s j).length := by
  have hrest := restoredBy_ne_nil (p := p) hblk hpay (Nat.le_of_eq hmates) hk fun i hi h => by
    have hmod : k % (d + p) = i := by
      rw [← h, Nat.mul_add_mod, Nat.mod_eq_of_lt (by omega)]
    omega
  have := List.length_pos_iff.2 hrest
  rw [returned, if_pos ⟨hj, Nat.le_of_eq hmates.symm⟩, hjk, List.length_append]
  omega

theorem deliver_completes (hmod : d ≤ k % (d + p)) (hblk : (blockOf d (k / (d + p)) ps).length = d)
    (hpay : ∃ b ∈ blockOf d (k / (d + p)) ps, b ≠ []) (hk : k ∉ s)
    (hmates : (mates (d + p) s k).card = d) : deliver d p ps s [k] ≠ [] := by
  have hlt := returned_completes (k := k) hblk hpay hk rfl hmates self_mem_mates hmod
  rw [deliver_cons]
  exact List.append_ne_nil_of_left_ne_nil (List.ne_nil_of_length_pos (by omega)) _

/-- **A copy that joins its block again**: with it the packets `js` complete the block, without it
they do not. -/
theorem deliver_rejoins (hpar : streamPayload d p ps k = none) (hmod : d ≤ k % (d + p))
    (hblk : (blockOf d (k / (d + p)) ps).length = d)
    (hpay : ∃ b ∈ blockOf d (k / (d + p)) ps, b ≠ []) (hk : k ∉ s) {js : List Nat} {j : Nat}
    (hnodup : (js ++ [j]).Nodup) (hblock : ∀ i ∈ js ++ [j], i / (d + p) = k / (d + p))
    (hnew : ∀ i ∈ js ++ [j], i ≠ k ∧ i ∉ s) (hroom : s.card + d ≤ 3 * (d + p))
    (hcount : (mates (d + p) s k).card + js.length + 1 = d) :
    deliver d p ps s (k :: (js ++ [j])) ≠ deliver d p ps s (js ++ [j]) := by
  have hown : ownPayload d p ps k = [] := by rw [ownPayload, hpar, Option.toList_none]
  have hcard := card_mates (n := d + p) hk
  have hcountP : ∀ is : List Nat, (∀ i ∈ is, i / (d + p) = k / (d + p)) →
      is.countP (· / (d + p) = k / (d + p)) = is.length := fun is his =>
    List.countP_eq_length.2 fun i hi => by simpa using his i hi
  have hjs : ∀ i ∈ js, i / (d + p) = k / (d + p) := fun i hi => hblock i (by simp [hi])
  -- without the copy, all of them are collected
  have hwithout : deliver d p ps s (js ++ [j]) = (js ++ [j]).flatMap (ownPayload d p ps) := by
    refine run_of_few (js ++ [j]) hblock ⟨?_, ?_⟩
    · rw [List.length_append, List.length_singleton]
      omega
    · rw [hcountP _ hblock, List.length_append, List.length_singleton]
      omega
  -- with it, all but the last one
  have hroomy : Roomy d (d + p) (3 * (d + p)) (k / (d + p)) (insert k s) js := by
    constructor
    · rw [Finset.card_insert_of_notMem hk]
      omega
    · rw [hcountP _ hjs]
      change (mates (d + p) s k).card + js.length < d
      omega
  have hwith : deliver d p ps (insert k s) js = js.flatMap (ownPayload d p ps) :=
    run_of_few js hjs hroomy
  have hset : js.foldl (receiveId d p) (insert k s) = insert k s ∪ js.toFinset :=
    foldl_receive_of_few js hjs hroomy
  have hjnew : j ∉ insert k s ∪ js.toFinset := by
    rw [Finset.mem_union, Finset.mem_insert, List.mem_toFinset]
    have hj := hnew j (by simp)
    have hdisj := (List.nodup_append.1 hnodup).2.2
    rintro ((rfl | h) | h)
    · exact hj.1 rfl
    · exact hj.2 h
    · exact hdisj j h j (by simp) rfl
  have hjk : j / (d + p) = k / (d + p) := hblock j (by simp)
  have hmates : (mates (d + p) (insert k s ∪ js.toFinset) j).card = d := by
    have hothers : ∀ i ∈ js.toFinset, i / (d + p) = k / (d + p) ∧ i ≠ k ∧ i ∉ s := by
      intro i hi
      have hi := List.mem_toFinset.1 hi
      exact ⟨hjs i hi, hnew i (List.mem_append_left _ hi)⟩
    rw [card_mates_union hothers hjk hjnew,
      List.toFinset_card_of_nodup (List.nodup_append.1 hnodup).1]
    exact hcount
  have hlast := returned_completes (k := k) hblk hpay hjnew hjk hmates
    (mem_mates.2 ⟨.inr (Finset.mem_union_left _ (Finset.mem_insert_self _ _)), hjk.symm⟩) hmod
  intro heq
  have hlen := congrArg List.length heq
  rw [deliver_cons, returned_of_few _ _ (by omega), hown, List.nil_append, receiveId,
    receive_of_few (by omega) (by omega)] at hlen
  have hnil : deliver d p ps (receiveId d p (insert k s ∪ js.toFinset) j) [] = [] := rfl
  rw [hwithout, deliver_append, hwith, hset, deliver_cons, hnil, List.append_nil,
    List.flatMap_append, List.length_append, List.length_append, List.flatMap_singleton] at hlen
  omega

theorem exists_deliver_ne (hpar : streamPayload d p ps k = none) (hmod : d ≤ k % (d + p))
    (hblk : (blockOf d (k / (d + p)) ps).length = d)
    (hpay : ∃ b ∈ blockOf d (k / (d + p)) ps, b ≠ []) (hk : k ∉ s)
    (hfew : (mates (d + p) s k).card < d) (hroom : s.card + d ≤ 3 * (d + p)) {block : Finset Nat}
    (hblock : ∀ j ∈ block, j / (d + p) = k / (d + p)) (hcard : d ≤ block.card) :
    ∃ js : List Nat, (∀ j ∈ js, j ∈ block) ∧
      deliver d p ps s (k :: js) ≠ deliver d p ps s js := by
  have hsub : d - (mates (d + p) s k).card ≤ (block \ mates (d + p) s k).card :=
    Nat.le_trans (Nat.sub_le_sub_right hcard _) (Finset.le_card_sdiff _ _)
  obtain ⟨js, hjs, hjscard⟩ := Finset.exists_subset_card_eq hsub
  have hmem : ∀ j ∈ js.toList, j ∈ block ∧ j ∉ mates (d + p) s k := fun j hj =>
    Finset.mem_sdiff.1 (hjs (Finset.mem_toList.1 hj))
  refine ⟨js.toList, fun j hj => (hmem j hj).1, ?_⟩
  have hlen : js.toList.length = d - (mates (d + p) s k).card := by
    rw [Finset.length_toList, hjscard]
  obtain hnil | ⟨is, j, hconcat⟩ := List.eq_nil_or_concat' js.toList
  · rw [hnil, List.length_nil] at hlen
    omega
  · have hnodup := js.nodup_toList
    rw [hconcat] at hlen hmem hnodup ⊢
    rw [List.length_append, List.length_singleton] at hlen
    refine deliver_rejoins hpar hmod hblk hpay hk hnodup (fun i hi => hblock i (hmem i hi).1)
      (fun i hi => ?_) hroom (by omega)
    have hnot := (hmem i hi).2
    rw [mem_mates, not_and'] at hnot
    exact not_or.1 (hnot (hblock i (hmem i hi).1))

end

/-! ## The calls -/

section
variable {codec : Codec UInt8} {d p : Nat} {ps : List Bytes}

theorem wireFlag_packet (seqid : UInt32) (flag : UInt16) (shard : Bytes) :
    wireFlag (packet seqid flag shard) = flag := by
  rw [wireFlag, packet, List.append_assoc, List.drop_left' (length_leBytes32 seqid),
    leUint16_append]

theorem payload_none_iff {k : Nat} {x : Bytes} (hx : streamPacket codec d p ps k = some x) :
    streamPayload d p ps k = none ↔ wireFlag x = typeFEC := by
  obtain ⟨shard, hshard, rfl⟩ := Option.map_eq_some_iff.1 hx
  rw [wireFlag_packet, streamPayload, flagOf]
  by_cases hk : k % (d + p) < d
  · rw [blockShard, if_pos hk] at hshard
    obtain ⟨b, hb, -⟩ := Option.map_eq_some_iff.1 hshard
    rw [if_pos hk, if_pos hk, hb]
    exact iff_of_false (by simp) (by decide)
  · rw [if_neg hk, if_neg hk]
    exact iff_of_true rfl rfl

theorem parity_block {k : Nat} {x : Bytes} (hx : streamPacket codec d p ps k = some x)
    (hnone : streamPayload d p ps k = none) :
    d ≤ k % (d + p) ∧ (blockOf d (k / (d + p)) ps).length = d := by
  obtain ⟨shard, hshard, -⟩ := Option.map_eq_some_iff.1 hx
  by_cases hk : k % (d + p) < d
  · rw [streamPayload, if_pos hk] at hnone
    rw [blockShard, if_pos hk, hnone] at hshard
    cases hshard
  · rw [blockShard, if_neg hk] at hshard
    exact ⟨Nat.not_lt.1 hk, (Option.ite_none_right_eq_some.1 hshard).1⟩

theorem invisible_iff {peer last₁ last₂ : Fec} {pre post : List Arrival} {copy : Arrival}
    {out out₁ out₂ : List Bytes} (hch : peer.dataCh = [])
    (hwithout : peer.drain (pre ++ post) = .ok (out ++ out₁, last₁))
    (hwith : peer.drain (pre ++ copy :: post) = .ok (out ++ out₂, last₂)) :
    Invisible peer pre copy post ↔ out₂ = out₁ := by
  rw [← flush_of_nil hch] at hwithout hwith
  constructor
  · -- enough calls to return everything
    intro hsame
    obtain ⟨outs, peer₁, rest₁, peer₂, rest₂, h1, h2⟩ :=
      hsame (out.length + out₁.length + out₂.length)
    obtain ⟨f1, r1, hc1, -⟩ := decodeCalls_drain (out.length + out₁.length + out₂.length) hwithout
    obtain ⟨f2, r2, hc2, -⟩ := decodeCalls_drain (out.length + out₁.length + out₂.length) hwith
    rw [h1] at hc1
    rw [h2] at hc2
    have houts := (Prod.mk.inj (Except.ok.inj hc1)).1.symm.trans (Prod.mk.inj (Except.ok.inj hc2)).1
    rw [hch, List.nil_append, List.nil_append,
      List.take_of_length_le (by rw [List.length_append]; omega),
      List.take_of_length_le (by rw [List.length_append]; omega)] at houts
    exact (List.append_cancel_left houts).symm
  · rintro rfl n
    obtain ⟨f1, r1, hc1, -⟩ := decodeCalls_drain n hwithout
    obtain ⟨f2, r2, hc2, -⟩ := decodeCalls_drain n hwith
    exact ⟨_, f1, r1, f2, r2, hc1, hc2⟩

section
variable (hlaw : codec.Lawful d p) (h0 : 0 < d) (hd : d + p ≤ 256)
  (hpay : ∀ b ∈ ps, b.length ≤ maxPayload) (hcount : streamLength d p ps.length < 2 ^ 31)
include hlaw h0 hd hpay hcount

theorem invisible_iff_deliver {sent : List Bytes}
    (hsent : ∀ x ∈ sent, ∃ k < 2 ^ 31, streamPacket codec d p ps k = some x) {fec mid : Fec}
    {pre : List Arrival} {out : List Bytes} (hch : fec.dataCh = [])
    (hpre : fec.drain pre = .ok (out, mid)) (hmid : Aligned codec d p ps mid) {copy : Arrival}
    (hcopy : copy.data ∈ sent) (post : List Arrival) (hpost : ∀ a ∈ post, a.data ∈ sent) :
    Invisible fec pre copy post ↔
      deliver d p ps (ids mid.decoder.rx) (wireSeqid copy.data :: seqids post) =
        deliver d p ps (ids mid.decoder.rx) (seqids post) := by
  have hdrain := fun (as : List Arrival) (has : ∀ a ∈ as, a.data ∈ sent) =>
    drain_run hlaw h0 hd hpay hcount as hmid fun a ha => hsent _ (has a ha)
  obtain ⟨last₁, h1, -⟩ := hdrain post hpost
  obtain ⟨last₂, h2, -⟩ := hdrain (copy :: post) (by simpa [hcopy] using hpost)
  have hwithout := drain_append pre post hpre
  have hwith := drain_append pre (copy :: post) hpre
  rw [h1] at hwithout
  rw [h2] at hwith
  exact invisible_iff hch hwithout hwith

omit hlaw h0 hd hpay hcount in
theorem exists_arrivals {sent : List Bytes} {js : List Nat}
    (hjs : ∀ j ∈ js, ∃ x ∈ sent, wireSeqid x = j) :
    ∃ post : List Arrival, (∀ a ∈ post, a.data ∈ sent) ∧ seqids post = js := by
  induction js with
  | nil => exact ⟨[], fun _ hmem => absurd hmem List.not_mem_nil, rfl⟩
  | cons j js ih =>
    obtain ⟨post, hpost, hids⟩ := ih fun i hi => hjs i (List.mem_cons_of_mem _ hi)
    obtain ⟨x, hxs, hxj⟩ := hjs j List.mem_cons_self
    refine ⟨⟨x, .new⟩ :: post, ?_, ?_⟩
    · simpa [hxs] using hpost
    · rw [seqids, List.map_cons, ← seqids, hids, hxj]

/-- **The effects of a copy** that arrives when `pre` left the decoder as `mid`. -/
theorem copy_effects {sent : List Bytes}
    (hsent : ∀ x ∈ sent, ∃ k < 2 ^ 31, streamPacket codec d p ps k = some x) {fec mid : Fec}
    {pre : List Arrival} {out : List Bytes} (hch : fec.dataCh = [])
    (hpre : fec.drain pre = .ok (out, mid)) (hmid : Aligned codec d p ps mid)
    (hlimit : (ids mid.decoder.rx).card ≤ 3 * (d + p)) {copy : Arrival} (hcopy : copy.data ∈ sent) :
    CopyEffects d p ps sent fec pre (ids mid.decoder.rx) copy := by
  obtain ⟨k, hk, hx⟩ := hsent copy.data hcopy
  obtain ⟨-, -, hwire, -⟩ := collect_step hlaw h0 hd hpay hcount hmid hk hx
  have hinv := invisible_iff_deliver hlaw h0 hd hpay hcount hsent hch hpre hmid hcopy
  have hnil : ∀ a ∈ ([] : List Arrival), a.data ∈ sent :=
    fun _ hmem => absurd hmem List.not_mem_nil
  have halone := hinv [] hnil
  have hparity : wireFlag copy.data = typeFEC → streamPayload d p ps k = none :=
    (payload_none_iff hx).2
  have hpayload : wireFlag copy.data = typeData → ∃ b, streamPayload d p ps k = some b := by
    intro hflag
    refine Option.ne_none_iff_exists'.1 fun hnone => ?_
    rw [(payload_none_iff hx).1 hnone] at hflag
    exact absurd hflag (by decide)
  have hfew : (mates (d + p) (ids mid.decoder.rx) k).card ≤ d := by
    have hle := card_mates_le (n := d + p) (s := ids mid.decoder.rx) (k := k)
    rw [card_filter_ids hmid.queue.ordered] at hle
    have := hmid.queue.few (k / (d + p))
    omega
  have hcompletes : wireFlag copy.data = typeFEC → k ∉ ids mid.decoder.rx →
      (∃ b ∈ blockOf d (k / (d + p)) ps, b ≠ []) →
      d ≤ (mates (d + p) (ids mid.decoder.rx) k).card → ¬ Invisible fec pre copy [] := by
    intro hflag hmem hne hmates
    obtain ⟨hmod, hblk⟩ := parity_block hx (hparity hflag)
    rw [halone, hwire]
    exact deliver_completes hmod hblk hne hmem (Nat.le_antisymm hfew hmates)
  rw [← hwire] at hcompletes
  refine ⟨fun hflag post hpost hharm => ?_, fun hflag => ?_, fun hflag hmem post hpost => ?_,
    hcompletes, fun hflag hmem hne hroom block hblock hcard => ?_⟩
  · exact (hinv post hpost).2
      (deliver_harmless (by rw [hwire]; exact hparity hflag) hlimit hharm)
  · obtain ⟨b, hb⟩ := hpayload hflag
    rw [halone, hwire, deliver_cons, returned, ownPayload, hb]
    exact List.cons_ne_nil _ _
  · obtain ⟨b, hb⟩ := hpayload hflag
    rw [hinv post hpost, deliver_cons, returned_of_mem _ _ hmem, receiveId, receive_of_mem hmem,
      ownPayload, hwire, hb]
    intro heq
    have := congrArg List.length heq
    simp at this
  · by_cases hmates : d ≤ (mates (d + p) (ids mid.decoder.rx) (wireSeqid copy.data)).card
    · exact ⟨[], hnil, hcompletes hflag hmem hne hmates⟩
    · rw [hwire] at hmem hne hmates hblock
      obtain ⟨hmod, hblk⟩ := parity_block hx (hparity hflag)
      obtain ⟨js, hjs, hdiffer⟩ := exists_deliver_ne (hparity hflag) hmod hblk hne hmem
        (Nat.not_le.1 hmates) hroom (fun j hj => (hblock j hj).1) hcard
      obtain ⟨post, hpost, rfl⟩ := exists_arrivals fun j hj => (hblock j (hjs j hj)).2
      refine ⟨post, hpost, ?_⟩
      rw [hinv post hpost, hwire]
      exact hdiffer

end

/-- **Second copies.** Payloads of up to `mtuLimit - 8` bytes are encoded, any subset of the send
calls failing, and of the sent packets `pre` arrive at a fresh peer, in any order and number; then a
copy of a packet of `pre` arrives, and then others of the sent packets. What the copy does is
decided by the ids that the arrivals `pre` leave in the queue. -/
theorem duplicate_copies {rs : Nat → Nat → Option (Codec UInt8)} (hrs : rs d p = some codec)
    (hlaw : codec.Lawful d p) (h0 : 1 ≤ d) (hp : 1 ≤ p) (hd : d + p ≤ 256)
    (hpay : ∀ b ∈ ps, b.length ≤ mtuLimit - 8) (hcount : streamLength d p ps.length < 2 ^ 31)
    (fails : Nat → Bool) :
    ∃ fec fec' wire, newFec rs d p 0 = some fec ∧
      fec.encodeCalls Wire.send ps (Wire.new fails) = .ok (fec', wire) ∧
      ∀ peer, newFec rs d p 0 = some peer → ∀ pre : List Arrival, (∀ a ∈ pre, a.data ∈ wire.sent) →
        ∃ out mid, peer.drain pre = .ok (out, mid) ∧
          ids mid.decoder.rx = queuedAfter d p pre ∧
          ∀ copy : Arrival, (∃ a ∈ pre, a.data = copy.data) →
            CopyEffects d p ps wire.sent peer pre (queuedAfter d p pre) copy := by
  obtain ⟨fec, hnew, -⟩ := newFec_ok h0 hp hd hrs
  obtain ⟨hat, hal, hrx⟩ := aligned_new h0 hp hd hrs ps hnew
  obtain ⟨fec', wire, hrun, -, hsent⟩ :=
    encodeCalls_stream hlaw h0 hp hd ps (Wire.new fails) hat hpay
  refine ⟨fec, fec', wire, hnew, hrun, fun peer hpeer pre harr => ?_⟩
  obtain rfl : fec = peer := Option.some.inj (hnew.symm.trans hpeer)
  have hemit : ∀ x ∈ wire.sent, ∃ k < 2 ^ 31, streamPacket codec d p ps k = some x := by
    intro x hx
    rcases hsent x hx with h | ⟨k, hk, hx⟩
    · cases h
    · exact ⟨k, Nat.lt_trans hk hcount, hx⟩
  obtain ⟨mid, hpre, hmid, hids⟩ :=
    drain_run hlaw h0 hd hpay hcount pre hal fun a ha => hemit _ (harr a ha)
  replace hids : ids mid.decoder.rx = queuedAfter d p pre := by
    rw [hids, hrx]
    rfl
  refine ⟨_, mid, hpre, hids, fun copy hcopy => ?_⟩
  obtain ⟨a, ha, hdata⟩ := hcopy
  rw [← hids]
  exact copy_effects hlaw h0 hd hpay hcount hemit hal.drained hpre hmid
    (hids ▸ card_queuedAfter_le d p pre) (hdata ▸ harr a ha)

end

/-- Two blocks with the codec of two data shards and one parity shard. The parity packet and a data
packet of the first one arrive, and the block is freed. Then a copy of the parity packet is
invisible before a packet of the next block, and one of the data packet is not. -/
theorem duplicate_copies_rs21 :
    ∃ fec fec' wire, newFec newRs21 2 1 0 = some fec ∧
      fec.encodeCalls Wire.send [[7], [8, 9], [5], [6]] (Wire.new fun _ => false) =
        .ok (fec', wire) ∧
      Invisible fec [⟨[2, 0, 0, 0, 0xf2, 0, 13, 0, 25, 18], .new⟩,
          ⟨[0, 0, 0, 0, 0xf1, 0, 3, 0, 7], .new⟩]
        ⟨[2, 0, 0, 0, 0xf2, 0, 13, 0, 25, 18], .new⟩ [⟨[3, 0, 0, 0, 0xf1, 0, 3, 0, 5], .new⟩] ∧
      ¬ Invisible fec [⟨[2, 0, 0, 0, 0xf2, 0, 13, 0, 25, 18], .new⟩,
          ⟨[0, 0, 0, 0, 0xf1, 0, 3, 0, 7], .new⟩] ⟨[0, 0, 0, 0, 0xf1, 0, 3, 0, 7], .new⟩ [] := by
  obtain ⟨fec, fec', wire, hnew, hrun, h⟩ :=
    duplicate_copies (show newRs21 2 1 = some rs21 from rfl) rs21_lawful (by decide) (by decide)
      (by decide) (show ∀ b ∈ ([[7], [8, 9], [5], [6]] : List Bytes), b.length ≤ mtuLimit - 8 by
        decide) (by decide) fun _ => false
  have hsent : ((newFec newRs21 2 1 0).bind fun fec =>
      (fec.encodeCalls Wire.send [[7], [8, 9], [5], [6]] (Wire.new fun _ => false)).toOption.map
        (·.2.sent.take 4)) =
      some [[0, 0, 0, 0, 0xf1, 0, 3, 0, 7], [1, 0, 0, 0, 0xf1, 0, 4, 0, 8, 9],
        [2, 0, 0, 0, 0xf2, 0, 13, 0, 25, 18], [3, 0, 0, 0, 0xf1, 0, 3, 0, 5]] := by decide +kernel
  rw [hnew, Option.bind_some, hrun] at hsent
  replace hsent : wire.sent.take 4 = _ := Option.some.inj hsent
  have hmem : ∀ x ∈ wire.sent.take 4, x ∈ wire.sent := fun x hx => List.mem_of_mem_take hx
  rw [hsent] at hmem
  obtain ⟨-, -, -, -, heffects⟩ := h fec hnew
    [⟨[2, 0, 0, 0, 0xf2, 0, 13, 0, 25, 18], .new⟩, ⟨[0, 0, 0, 0, 0xf1, 0, 3, 0, 7], .new⟩]
    fun a ha => by
      rcases List.mem_cons.1 ha with rfl | ha
      · exact hmem _ (by decide)
      · rw [List.mem_singleton.1 ha]
        exact hmem _ (by decide)
  refine ⟨fec, fec', wire, hnew, hrun, ?_, ?_⟩
  · refine (heffects _ ⟨_, List.mem_cons_self, rfl⟩).harmless (by decide) _ (fun a ha => ?_) ?_
    · rw [List.mem_singleton.1 ha]
      exact hmem _ (by decide)
    · exact .passed (by decide) (by decide)
  · exact (heffects _ ⟨_, List.mem_cons_of_mem _ List.mem_cons_self, rfl⟩).data (by decide)

/-- **A data packet is delivered twice**: the first data packet of the block arrives, and then a
copy of it. -/
theorem duplicate_delivered :
    ∃ fec fec' wire, newFec newRs21 2 1 0 = some fec ∧
      fec.encodeCalls Wire.send [[7], [8, 9]] (Wire.new fun _ => false) = .ok (fec', wire) ∧
      [0, 0, 0, 0, 0xf1, 0, 3, 0, 7] ∈ wire.sent ∧
      (Fec.decodeCalls 2 fec [⟨[0, 0, 0, 0, 0xf1, 0, 3, 0, 7], .new⟩]).toOption.map (·.1) =
        some [[7]] ∧
      (Fec.decodeCalls 2 fec [⟨[0, 0, 0, 0, 0xf1, 0, 3, 0, 7], .new⟩,
        ⟨[0, 0, 0, 0, 0xf1, 0, 3, 0, 7], .new⟩]).toOption.map (·.1) = some [[7], [7]] := by
  have hrun : ((newFec newRs21 2 1 0).bind fun fec =>
      (fec.encodeCalls Wire.send [[7], [8, 9]] (Wire.new fun _ => false)).toOption.map fun r =>
        (decide ([0, 0, 0, 0, 0xf1, 0, 3, 0, 7] ∈ r.2.sent),
          (Fec.decodeCalls 2 fec [⟨[0, 0, 0, 0, 0xf1, 0, 3, 0, 7], .new⟩]).toOption.map (·.1),
          (Fec.decodeCalls 2 fec [⟨[0, 0, 0, 0, 0xf1, 0, 3, 0, 7], .new⟩,
            ⟨[0, 0, 0, 0, 0xf1, 0, 3, 0, 7], .new⟩]).toOption.map (·.1))) =
      some (true, some [[7]], some [[7], [7]]) := by decide +kernel
  obtain ⟨fec, hnew, hrun⟩ := Option.bind_eq_some_iff.1 hrun
  obtain ⟨r, hr, hrun⟩ := Option.map_eq_some_iff.1 hrun
  simp only [Prod.mk.injEq, decide_eq_true_eq] at hrun
  exact ⟨fec, r.1, r.2, hnew, ok_of_toOption hr, hrun⟩

end Faketcp
