import TcpRaw.Fec.Proof.Shards

/-!
# The encoder produces the packet stream

`EncAt codec d p enc B cur` relates an encoder to the stream it is in: `B` blocks are done, and the
shard cache holds the data shards of the payloads `cur` of the block under way.
`encode_step` says what one call of `encode` does with a payload: the data packet, and with the
last payload of a block its parity packets, whose shards are the codec's parity of the padded data
shards. The bytes that earlier blocks left in the cache beyond a shard's length do not matter: they
are zeroed (`bzeroTails_ok`) or written over (`writeParity_ok`).

`StreamAt` is the same relation for all payloads so far, and `encode_stream` states the step there:
the packets that a call returns are the next ones of `streamPacket`.
-/

namespace Faketcp

open GoRt Erasure

/-- The payload a slice of the shard cache has room for. -/
def maxPayload : Nat := mtuLimit - fecHeaderSizePlus2

/-- The encoder has done `B` blocks and holds the payloads `cur` of the next one. -/
structure EncAt (codec : Codec UInt8) (d p : Nat) (enc : FecEncoder) (B : Nat)
    (cur : List Bytes) : Prop where
  dataShards : enc.dataShards = d
  paws : enc.paws.toNat = pawsOf (d + p)
  headerOffset : enc.headerOffset = 0
  payloadOffset : enc.payloadOffset = 6
  zeros : enc.zeros = List.replicate mtuLimit 0
  codec : enc.codec = codec
  next : enc.next.toNat = (B * (d + p) + cur.length) % pawsOf (d + p)
  shardCount : enc.shardCount = cur.length
  maxSize : enc.maxSize = if cur = [] then 0 else blockLen cur + 6
  cache_length : enc.shardCache.length = d + p
  cap : ∀ s ∈ enc.shardCache, s.cap = mtuLimit
  parity_len : ∀ s ∈ enc.shardCache.drop d, 6 ≤ s.len
  cached : (enc.shardCache.take cur.length).map (fun s => s.data.drop 6) = cur.map sized
  payload : ∀ b ∈ cur, b.length ≤ maxPayload

/-! ## The stages of a call -/

theorem putHeader_ok {s : Slice UInt8} (h : 6 ≤ s.len) (seqid : UInt32) (flag : UInt16) :
    ∃ t, putHeader s 0 seqid flag = .ok t ∧ t.len = s.len ∧ t.cap = s.cap ∧
      t.arr = overwrite s.arr 0 (leBytes32 seqid ++ leBytes16 flag) := by
  obtain ⟨t, ht, hl, hc, harr, -⟩ := putHeader_at (show 0 + 6 ≤ s.len by omega) seqid flag
  exact ⟨t, ht, hl, hc, harr⟩

/-- The header of a data packet and its size, over the eight bytes kept for them. -/
theorem stamp_ok {enc : FecEncoder} (hheader : enc.headerOffset = 0)
    (hpayload : enc.payloadOffset = 6) (b : Bytes) :
    ∃ s t, enc.markData (Slice.ofList (List.replicate fecHeaderSizePlus2 0 ++ b)) =
        .ok (s, { enc with next := enc.next + 1 }) ∧
      FecEncoder.putSize { enc with next := enc.next + 1 } s = .ok t ∧
      t.data = packet enc.next typeData (sized b) := by
  set z := Slice.ofList (List.replicate fecHeaderSizePlus2 (0 : UInt8) ++ b) with hz
  have hzl : z.len = b.length + 8 := by
    show (List.replicate fecHeaderSizePlus2 (0 : UInt8) ++ b).length = _
    rw [List.length_append, List.length_replicate]
    exact Nat.add_comm _ _
  obtain ⟨s, hs, hsl, -, hsa⟩ := putHeader_ok (show 6 ≤ z.len by omega) enc.next typeData
  have h8 : 8 = 6 + (leBytes16 (UInt16.ofNat (s.len - 6))).length := rfl
  obtain ⟨t, ht, htd, -⟩ := Slice.copyRange_data h8 (show 8 ≤ s.len by omega)
  refine ⟨s, t, ?_, ?_, ?_⟩
  · rw [FecEncoder.markData, hheader, hs]
    rfl
  · rw [FecEncoder.putSize, hpayload, if_neg (by omega), if_pos (by omega), ht]
  · have hsd : s.data = leBytes32 enc.next ++ leBytes16 typeData ++ ([0, 0] ++ b) := by
      rw [Slice.data, hsl, hsa, Slice.take_overwrite_zero (by rw [hzl]; simp)]
      have : z.arr.take z.len = List.replicate fecHeaderSizePlus2 0 ++ b := by
        rw [← Slice.data, hz, Slice.data_ofList]
      rw [this]
      rfl
    rw [htd, hsd, overwrite, List.take_left' (by simp), List.drop_append, hsl, hzl]
    simp [packet, sized]

theorem length_stamped {seqid : UInt32} {b : Bytes} {t : Slice UInt8}
    (ht : t.data = packet seqid typeData (sized b)) : t.len = b.length + 8 := by
  rw [← Slice.length_data, ht]
  simp [packet]
  omega

/-- Caching a packet that a slice of the cache has room for. -/
theorem cacheShard_fits {enc : FecEncoder} (hk : enc.shardCount < enc.shardCache.length)
    (hcap : ∀ s ∈ enc.shardCache, s.cap = mtuLimit) {t : Slice UInt8} (ht : t.len ≤ mtuLimit) :
    ∃ s, s.data = t.data ∧ s.len = t.len ∧
      (∀ s' ∈ enc.shardCache.set enc.shardCount s, s'.cap = mtuLimit) ∧
      enc.cacheShard t = .ok { enc with
        shardCache := enc.shardCache.set enc.shardCount s
        shardCount := enc.shardCount + 1
        maxSize := if t.len > enc.maxSize then t.len else enc.maxSize } := by
  have hcapk := hcap _ (List.getElem_mem hk)
  obtain ⟨s, hs, hsd, hsc, hsl⟩ := Slice.data_fill
    (show t.data.length ≤ (enc.shardCache[enc.shardCount]).cap by
      rw [hcapk, Slice.length_data]
      exact ht)
  rw [Slice.length_data] at hs hsl
  refine ⟨s, hsd, hsl, fun s' hs' => ?_, ?_⟩
  · rcases List.mem_or_eq_of_mem_set hs' with hs' | rfl
    · exact hcap s' hs'
    · rw [hsc, hcapk]
  · unfold FecEncoder.cacheShard
    rw [index_ok hk, ok_bind, hs, ok_bind, setIndex_ok hk, ok_bind]
    rfl

theorem cacheShard_ok {codec : Codec UInt8} {d p B : Nat} {enc : FecEncoder} {cur : List Bytes}
    (h : EncAt codec d p enc B cur) (hd : d + p ≤ 256) (hp : 0 < p) (hcur : cur.length < d)
    {b : Bytes} (hb : b.length ≤ maxPayload) {t : Slice UInt8}
    (ht : t.data = packet enc.next typeData (sized b)) :
    ∃ enc', FecEncoder.cacheShard { enc with next := enc.next + 1 } t = .ok enc' ∧
      EncAt codec d p enc' B (cur ++ [b]) := by
  have hlen := length_stamped ht
  have hk : enc.shardCount < enc.shardCache.length := by
    rw [h.shardCount, h.cache_length]
    omega
  obtain ⟨s, hsd, -, hcap, hs⟩ := @cacheShard_fits { enc with next := enc.next + 1 } hk h.cap t (by
    unfold maxPayload fecHeaderSizePlus2 fecHeaderSize mtuLimit at *
    omega)
  refine ⟨_, hs, ?_⟩
  -- the packet just sent is not the last of its block, so `next` does not reach `paws`
  have hnext : (enc.next + 1).toNat = (B * (d + p) + (cur ++ [b]).length) % pawsOf (d + p) := by
    have hlt := Nat.mod_lt (B * (d + p) + cur.length) (pawsOf_pos (n := d + p) (by omega) hd)
    have hbd := (pawsOf_bounds (n := d + p) (by omega) hd).2
    have hmod : (B * (d + p) + cur.length) % (d + p) + 1 < d + p := by
      rw [Nat.mul_comm, Nat.mul_add_mod, Nat.mod_eq_of_lt (by omega)]
      omega
    rw [UInt32.toNat_add, h.next, List.length_append, List.length_singleton, ← Nat.add_assoc,
      succ_mod_pawsOf hd hmod, UInt32.toNat_one, Nat.mod_eq_of_lt (by omega)]
  exact
    { h with
      next := hnext
      shardCount := by simp [h.shardCount]
      maxSize := by
        simp only [h.maxSize, hlen, blockLen_append]
        cases cur with
        | nil => simp [blockLen]
        | cons c cur =>
          simp only [reduceCtorEq, if_false, List.cons_append]
          split <;> omega
      cache_length := by simpa using h.cache_length
      cap := hcap
      parity_len := by
        simp only [h.shardCount]
        rw [List.drop_set_of_lt hcur]
        exact h.parity_len
      cached := by
        have hk' : cur.length < enc.shardCache.length := by rw [← h.shardCount]; exact hk
        have hdrop : s.data.drop 6 = sized b := by
          rw [hsd, ht]
          exact List.drop_left' (by simp)
        simp only [h.shardCount, List.length_append, List.length_singleton]
        rw [List.take_succ_eq_append_getElem (by simpa using hk'),
          List.take_set_of_le (Nat.le_refl _)]
        simp [h.cached, hdrop]
      payload := fun b' hb' => by
        rcases List.mem_append.1 hb' with hb' | hb'
        · exact h.payload b' hb'
        · rw [List.mem_singleton.1 hb']
          exact hb }

/-! ## A block's parity -/

/-- The part of a slice that the codec sees, up to `m`. -/
def bodyUpto (m : Nat) (s : Slice UInt8) : Bytes := (s.arr.take m).drop 6

theorem bzeroTails_ok {m : Nat} (hm : m ≤ mtuLimit) :
    ∀ (shards : List (Slice UInt8)),
      (∀ s ∈ shards, 6 ≤ s.len ∧ s.len ≤ m ∧ s.cap = mtuLimit) →
      ∃ out, bzeroTails (List.replicate mtuLimit 0) m shards = .ok out ∧
        out.length = shards.length ∧ (∀ s ∈ out, s.cap = mtuLimit) ∧
        out.map (bodyUpto m) = shards.map fun s => padTo (m - 6) (s.data.drop 6)
  | [], _ => ⟨[], rfl, rfl, by simp, rfl⟩
  | s :: shards, h => by
    obtain ⟨h6, hl, hc⟩ := h s (by simp)
    obtain ⟨out, ho, hlen, hcap, hbody⟩ :=
      bzeroTails_ok hm shards fun s' hs' => h s' (by simp [hs'])
    obtain ⟨t, ht, htc, hb⟩ := zeroTail_ok h6 hl (show m ≤ s.cap by omega)
      (show m - s.len ≤ mtuLimit by omega)
    replace hb : bodyUpto m t = padTo (m - 6) (s.data.drop 6) := hb
    refine ⟨t :: out, ?_, by simp [hlen], ?_, by simp [hb, hbody]⟩
    · rw [bzeroTails, ht, ok_bind, ho]
      rfl
    · intro s' hs'
      rcases List.mem_cons.1 hs' with rfl | hs'
      · rw [htc, hc]
      · exact hcap s' hs'

theorem stripHeaders_ok {m : Nat} (h6 : 6 ≤ m) (shards : List (Slice UInt8))
    (h : ∀ s ∈ shards, m ≤ s.cap) :
    ∃ out, stripHeaders 6 m shards = .ok out ∧ out.map Slice.data = shards.map (bodyUpto m) :=
  stripHeaders_at h6 shards h

theorem writeParity_ok {m : Nat} (h6 : 6 ≤ m) (shards : List (Slice UInt8)) (parity : List Bytes)
    (hlen : parity.length = shards.length) (hsize : ∀ s ∈ parity, s.length = m - 6)
    (h : ∀ s ∈ shards, m ≤ s.cap ∧ 6 ≤ s.len) :
    ∃ out, writeParity 6 m shards parity = .ok out ∧ out.map (bodyUpto m) = parity ∧
      out.map (fun s => (s.cap, s.len)) = shards.map fun s => (s.cap, s.len) :=
  writeParity_at h6 shards parity hlen hsize h

/-- The packets of the parity shards of a block, from packet `k` of the stream on. -/
def parityPackets (n : Nat) : Nat → List Bytes → List Bytes
  | _, [] => []
  | k, s :: parity =>
    packet (UInt32.ofNat (k % pawsOf n)) typeFEC s :: parityPackets n (k + 1) parity

theorem markParity_ok {n : Nat} (hn0 : 0 < n) (hn : n ≤ 256) :
    ∀ (shards : List (Slice UInt8)) (k : Nat) (enc : FecEncoder), enc.headerOffset = 0 →
      enc.paws.toNat = pawsOf n → enc.next.toNat = k % pawsOf n → 6 ≤ enc.maxSize →
      (∀ s ∈ shards, enc.maxSize ≤ s.cap ∧ 6 ≤ s.len) →
      ∃ out next, enc.markParity shards = .ok (out, { enc with next }) ∧
        out.map Slice.data = parityPackets n k (shards.map (bodyUpto enc.maxSize)) ∧
        out.map (fun s => (s.cap, s.len)) = shards.map (fun s => (s.cap, enc.maxSize)) ∧
        next.toNat = (k + shards.length) % pawsOf n
  | [], k, enc, _, _, hk, _, _ => ⟨[], enc.next, rfl, rfl, rfl, hk⟩
  | s :: shards, k, enc, ho, hp, hk, h6, h => by
    obtain ⟨hc, hl⟩ := h s (by simp)
    obtain ⟨t, ht, -, htc, harr⟩ := putHeader_ok hl enc.next typeFEC
    obtain ⟨u, hu, hua, hul⟩ : ∃ u, t.upto enc.maxSize = .ok u ∧ u.arr = t.arr ∧
        u.len = enc.maxSize := ⟨_, Slice.upto_ok (by omega), rfl, rfl⟩
    have hnext : ((enc.next + 1) % enc.paws).toNat = (k + 1) % pawsOf n := by
      have hlt := Nat.mod_lt k (pawsOf_pos hn0 hn)
      have hbd := (pawsOf_bounds hn0 hn).2
      rw [UInt32.toNat_mod, UInt32.toNat_add, hp, hk, UInt32.toNat_one,
        Nat.mod_eq_of_lt (b := 2 ^ 32) (by omega), Nat.mod_add_mod]
    obtain ⟨out, next, hout, hd, hcl, hnx⟩ :=
      markParity_ok hn0 hn shards (k + 1) { enc with next := (enc.next + 1) % enc.paws } ho hp
        hnext h6 fun s' hs' => h s' (by simp [hs'])
    refine ⟨u :: out, next, ?_, ?_, ?_, ?_⟩
    · have hmark : enc.markFEC s = .ok (t, { enc with next := (enc.next + 1) % enc.paws }) := by
        rw [FecEncoder.markFEC, ho, ht]
        rfl
      rw [FecEncoder.markParity, hmark, ok_bind]
      dsimp only
      rw [hu, ok_bind, hout]
      rfl
    · have hid : enc.next = UInt32.ofNat (k % pawsOf n) := by
        rw [← hk, UInt32.ofNat_toNat]
      simp only [List.map_cons, parityPackets, hd]
      congr 1
      rw [Slice.data, hua, hul, harr, Slice.take_overwrite_zero (by simpa using h6), packet,
        bodyUpto, hid]
      rfl
    · have huc : u.cap = s.cap := by rw [Slice.cap, hua]; exact htc
      simp only [List.map_cons, hcl, hul, huc]
    · rw [hnx, List.length_cons]
      congr 1
      omega

section
variable {codec : Codec UInt8} {d p B : Nat} {enc : FecEncoder} {cur : List Bytes}

theorem EncAt.shard_len (h : EncAt codec d p enc B cur) {s : Slice UInt8}
    (hs : s ∈ enc.shardCache.take cur.length) : 6 ≤ s.len ∧ s.len ≤ blockLen cur + 6 := by
  have hmem : s.data.drop 6 ∈ cur.map sized := by
    rw [← h.cached]
    exact List.mem_map_of_mem hs
  obtain ⟨b, hb, he⟩ := List.mem_map.1 hmem
  have hlen := congrArg List.length he
  have hle := length_le_blockLen hb
  rw [length_sized, List.length_drop, Slice.length_data] at hlen
  omega

theorem EncAt.blockLen_le (h : EncAt codec d p enc B cur) : blockLen cur + 6 ≤ mtuLimit := by
  have : blockLen cur ≤ mtuLimit - 6 := Faketcp.blockLen_le fun b hb => by
    have := h.payload b hb
    unfold maxPayload fecHeaderSizePlus2 fecHeaderSize mtuLimit at *
    omega
  unfold mtuLimit at *
  omega

theorem EncAt.parity_shard (h : EncAt codec d p enc B cur) {s : Slice UInt8}
    (hs : s ∈ enc.shardCache.drop d) : s.cap = mtuLimit ∧ 6 ≤ s.len :=
  ⟨h.cap s (List.mem_of_mem_drop hs), h.parity_len s hs⟩

/-- The data shards of a full block with their tails zeroed. -/
theorem EncAt.zeroed (h : EncAt codec d p enc B cur) (hcur : cur.length = d)
    (hmax : enc.maxSize = blockLen cur + 6) :
    ∃ shards, bzeroTails (List.replicate mtuLimit 0) enc.maxSize (enc.shardCache.take d) =
      .ok shards ∧ shards.length = d ∧ (∀ s ∈ shards, s.cap = mtuLimit) ∧
      shards.map (bodyUpto enc.maxSize) = paddedData cur := by
  have hcap := h.blockLen_le
  obtain ⟨shards, hbz, hlen, hsc, hbody⟩ := bzeroTails_ok (m := enc.maxSize) (by omega)
    (enc.shardCache.take d) fun s hs => by
      have := h.shard_len (s := s) (by rw [hcur]; exact hs)
      exact ⟨this.1, hmax ▸ this.2, h.cap s (List.mem_of_mem_take hs)⟩
  rw [List.length_take, h.cache_length, Nat.min_eq_left (Nat.le_add_right d p)] at hlen
  refine ⟨shards, hbz, hlen, hsc, ?_⟩
  have hcached := h.cached
  rw [hcur] at hcached
  calc shards.map (bodyUpto enc.maxSize)
      = ((enc.shardCache.take d).map fun s => s.data.drop 6).map (padTo (blockLen cur)) := by
        rw [hbody, hmax, Nat.add_sub_cancel, List.map_map]
        rfl
    _ = paddedData cur := by
        rw [hcached, List.map_map]
        rfl

/-- The parity shards of a full block, written into the cache and stamped. -/
theorem EncAt.stamped (h0 : 0 < d) (hd : d + p ≤ 256) (h : EncAt codec d p enc B cur)
    (hcur : cur.length = d) (hmax : enc.maxSize = blockLen cur + 6) {data parity : List Bytes}
    (hcw : codec.Codeword d p (blockLen cur) data parity) :
    ∃ written ps next, writeParity 6 enc.maxSize (enc.shardCache.drop d) parity = .ok written ∧
      enc.markParity written = .ok (ps, { enc with next }) ∧ ps.length = p ∧
      (∀ s ∈ ps, s.cap = mtuLimit ∧ s.len = enc.maxSize) ∧
      ps.map Slice.data = parityPackets (d + p) (B * (d + p) + d) parity ∧
      next.toNat = ((B + 1) * (d + p)) % pawsOf (d + p) := by
  have hcap : enc.maxSize ≤ mtuLimit := hmax ▸ h.blockLen_le
  obtain ⟨written, hw, hwb, hwc⟩ := writeParity_ok (m := enc.maxSize) (by omega)
    (enc.shardCache.drop d) parity
    (by rw [hcw.parity_length, List.length_drop, h.cache_length, Nat.add_sub_cancel_left])
    (fun s hs => by rw [hcw.parity_size s hs, hmax, Nat.add_sub_cancel])
    (fun s hs => ⟨by rw [(h.parity_shard hs).1]; exact hcap, (h.parity_shard hs).2⟩)
  have hwritten : ∀ s ∈ written, s.cap = mtuLimit ∧ 6 ≤ s.len := by
    intro s hs
    obtain ⟨s', hs', he⟩ := exists_of_map_eq hwc hs
    rw [Prod.mk.injEq] at he
    rw [← he.1, ← he.2]
    exact h.parity_shard hs'
  have hwl : written.length = p := by
    rw [← List.length_map (bodyUpto enc.maxSize), hwb, hcw.parity_length]
  obtain ⟨ps, next, hm, hmd, hmc, hnext⟩ := markParity_ok (by omega : 0 < d + p) hd written
    (B * (d + p) + d) enc h.headerOffset h.paws (by rw [h.next, hcur]) (by omega)
    fun s hs => ⟨by rw [(hwritten s hs).1]; exact hcap, (hwritten s hs).2⟩
  rw [hwb] at hmd
  refine ⟨written, ps, next, hw, hm, ?_, fun s hs => ?_, hmd, ?_⟩
  · have := congrArg List.length hmc
    rwa [List.length_map, List.length_map, hwl] at this
  · obtain ⟨s', hs', he⟩ := exists_of_map_eq hmc hs
    rw [Prod.mk.injEq] at he
    exact ⟨by rw [← he.1, (hwritten s' hs').1], he.2.symm⟩
  · rw [hnext, hwl, Nat.add_one_mul, Nat.add_assoc]

theorem EncAt.next_block (h : EncAt codec d p enc B cur) {shards ps : List (Slice UInt8)}
    {next : UInt32} (hshards : shards.length = d) (hcap : ∀ s ∈ shards, s.cap = mtuLimit)
    (hlen : ps.length = p) (hps : ∀ s ∈ ps, s.cap = mtuLimit ∧ 6 ≤ s.len)
    (hnext : next.toNat = ((B + 1) * (d + p)) % pawsOf (d + p)) :
    EncAt codec d p { enc with next, shardCache := shards ++ ps, shardCount := 0, maxSize := 0 }
      (B + 1) [] :=
  { h with
    next := hnext
    shardCount := rfl
    maxSize := rfl
    cache_length := by rw [List.length_append, hshards, hlen]
    cap := fun s hs => by
      rcases List.mem_append.1 hs with hs | hs
      · exact hcap s hs
      · exact (hps s hs).1
    parity_len := fun s hs => by
      rw [List.drop_left' hshards] at hs
      exact (hps s hs).2
    cached := rfl
    payload := by simp }

/-- **The parity of a full block**, and the encoder ready for the next one. -/
theorem encodeBlock_ok (henc : codec.Encodes d p) (h0 : 0 < d) (hd : d + p ≤ 256)
    (h : EncAt codec d p enc B cur) (hcur : cur.length = d) :
    ∃ parity ps enc', codec.Codeword d p (blockLen cur) (paddedData cur) parity ∧
      enc.encodeBlock = .ok (ps, enc') ∧
      ps.map Slice.data = parityPackets (d + p) (B * (d + p) + d) parity ∧
      EncAt codec d p { enc' with shardCount := 0, maxSize := 0 } (B + 1) [] := by
  obtain ⟨c, hc⟩ := List.exists_mem_of_length_pos (by omega : 0 < cur.length)
  have hlen0 := length_le_blockLen hc
  have hmax : enc.maxSize = blockLen cur + 6 := by
    rw [h.maxSize, if_neg (List.ne_nil_of_mem hc)]
  have hcap : enc.maxSize ≤ mtuLimit := hmax ▸ h.blockLen_le
  obtain ⟨parity, hcw⟩ := henc ((length_paddedData cur).trans hcur)
    (show 0 < blockLen cur by omega) fun s hs => size_paddedData hs
  obtain ⟨shards, hbz, hsl, hsc, hbody⟩ := h.zeroed hcur hmax
  obtain ⟨written, ps, next, hw, hm, hpl, hps, hdata, hnext⟩ := h.stamped h0 hd hcur hmax hcw
  -- what the codec sees
  obtain ⟨cache, hst, hcd⟩ := stripHeaders_ok (m := enc.maxSize) (by omega)
    (shards ++ enc.shardCache.drop d) fun s hs => by
      rcases List.mem_append.1 hs with hs | hs
      · rw [hsc s hs]; exact hcap
      · rw [(h.parity_shard hs).1]; exact hcap
  have htake : (cache.take d).map Slice.data = paddedData cur := by
    rw [List.map_take, hcd, List.map_append, hbody, List.take_left' (by
      rw [length_paddedData, hcur])]
  obtain ⟨enc', henc'⟩ : ∃ enc', enc' = { enc with next, shardCache := shards ++ ps } := ⟨_, rfl⟩
  refine ⟨parity, ps, enc', hcw, ?_, hdata, ?_⟩
  · unfold FecEncoder.encodeBlock
    rw [h.zeros, h.dataShards, h.payloadOffset, hbz, ok_bind, hst, ok_bind, htake, h.codec,
      hcw.encode]
    dsimp only
    rw [hw, ok_bind, hm, henc']
    rfl
  · rw [henc']
    exact h.next_block hsl hsc hpl (fun s hs => ⟨(hps s hs).1, by rw [(hps s hs).2]; omega⟩) hnext

/-! ## A whole call -/

/-- **One call of `encode`** on a payload: the data packet, and the parity packets of the block
that it completes. -/
theorem encode_step (henc : codec.Encodes d p) (hp : 0 < p) (hd : d + p ≤ 256)
    (h : EncAt codec d p enc B cur) (hcur : cur.length < d) {b : Bytes}
    (hb : b.length ≤ maxPayload) :
    ∃ s ps enc', enc.encode (Slice.ofList (List.replicate fecHeaderSizePlus2 0 ++ b)) =
        .ok (s, ps, enc') ∧ s.data = packet enc.next typeData (sized b) ∧
      ((cur.length + 1 < d ∧ ps = [] ∧ EncAt codec d p enc' B (cur ++ [b])) ∨
        (cur.length + 1 = d ∧ EncAt codec d p enc' (B + 1) [] ∧ ∃ parity,
          codec.Codeword d p (blockLen (cur ++ [b])) (paddedData (cur ++ [b])) parity ∧
          ps.map Slice.data = parityPackets (d + p) (B * (d + p) + d) parity)) := by
  obtain ⟨s, t, hs, ht, htd⟩ := stamp_ok h.headerOffset h.payloadOffset b
  obtain ⟨enc1, h1, hat⟩ := cacheShard_ok h hd hp hcur hb htd
  have hcount : enc1.shardCount = cur.length + 1 := by
    rw [hat.shardCount, List.length_append, List.length_singleton]
  unfold FecEncoder.encode
  rw [hs, ok_bind]
  dsimp only
  rw [ht, ok_bind, h1, ok_bind, hcount, hat.dataShards]
  by_cases hfull : cur.length + 1 = d
  · obtain ⟨parity, ps, enc2, hcw, he, hps, hat2⟩ := encodeBlock_ok henc (by omega) hd hat (by
      rw [List.length_append, List.length_singleton]
      exact hfull)
    rw [if_pos hfull, he]
    exact ⟨t, ps, _, rfl, htd, .inr ⟨hfull, hat2, parity, hcw, hps⟩⟩
  · rw [if_neg hfull]
    exact ⟨t, [], enc1, rfl, htd, .inl ⟨by omega, rfl, hat⟩⟩

/-- The encoder after the payloads `ps`. -/
def StreamAt (codec : Codec UInt8) (d p : Nat) (enc : FecEncoder) (ps : List Bytes) : Prop :=
  EncAt codec d p enc (ps.length / d) (ps.drop (d * (ps.length / d)))

theorem streamAt_new {rs : Nat → Nat → Option (Codec UInt8)} (hrs : rs d p = some codec)
    (h0 : 0 < d) (hp : 0 < p) (hd : d + p ≤ 256) :
    ∃ enc, newFECEncoder rs d p 0 = some enc ∧ StreamAt codec d p enc [] := by
  refine ⟨_, by rw [newFECEncoder, if_neg (by omega), hrs]; rfl, ?_⟩
  simp only [StreamAt, List.length_nil, Nat.zero_div, List.drop_nil]
  exact
    { dataShards := rfl
      paws := toNat_paws (by omega) (by omega)
      headerOffset := rfl
      payloadOffset := rfl
      zeros := rfl
      codec := rfl
      next := by simp
      shardCount := rfl, maxSize := rfl
      cache_length := List.length_replicate
      cap := fun s hs => by rw [List.eq_of_mem_replicate hs]; exact List.length_replicate
      parity_len := fun s hs => by
        rw [List.eq_of_mem_replicate (List.mem_of_mem_drop hs)]
        show 6 ≤ (List.replicate mtuLimit (0 : UInt8)).length
        rw [List.length_replicate, mtuLimit]
        omega
      cached := rfl
      payload := by simp }

theorem getElem?_parityPackets (n : Nat) : ∀ (k : Nat) (parity : List Bytes) (i : Nat),
    (parityPackets n k parity)[i]? =
      parity[i]?.map (packet (UInt32.ofNat ((k + i) % pawsOf n)) typeFEC)
  | _, [], _ => rfl
  | k, s :: parity, 0 => rfl
  | k, s :: parity, i + 1 => by
    rw [parityPackets, List.getElem?_cons_succ, getElem?_parityPackets n (k + 1) parity i,
      List.getElem?_cons_succ]
    congr 4
    omega

theorem length_parityPackets (n : Nat) : ∀ (k : Nat) (parity : List Bytes),
    (parityPackets n k parity).length = parity.length
  | _, [] => rfl
  | k, _ :: parity => congrArg (· + 1) (length_parityPackets n (k + 1) parity)

/-- **The encoder produces the stream**: the packets that a call returns are the next ones. -/
theorem encode_stream (henc : codec.Encodes d p) (h0 : 0 < d) (hp : 0 < p) (hd : d + p ≤ 256)
    {ps : List Bytes} (h : StreamAt codec d p enc ps) {b : Bytes} (hb : b.length ≤ maxPayload) :
    ∃ s pss enc', enc.encode (Slice.ofList (List.replicate fecHeaderSizePlus2 0 ++ b)) =
        .ok (s, pss, enc') ∧ StreamAt codec d p enc' (ps ++ [b]) ∧
      streamLength d p ps.length + (s.data :: pss.map Slice.data).length =
        streamLength d p (ps.length + 1) ∧
      ∀ i x, (s.data :: pss.map Slice.data)[i]? = some x →
        streamPacket codec d p (ps ++ [b]) (streamLength d p ps.length + i) = some x := by
  have hm := Nat.div_add_mod ps.length d
  have hr := Nat.mod_lt ps.length h0
  obtain ⟨B, hB⟩ : ∃ B, B = ps.length / d := ⟨_, rfl⟩
  obtain ⟨cur, hcur⟩ : ∃ cur, cur = ps.drop (d * B) := ⟨_, rfl⟩
  have hlen : cur.length = ps.length % d := by
    rw [hcur, List.length_drop, hB]
    omega
  have hdrop : (ps ++ [b]).drop (d * B) = cur ++ [b] := by
    rw [List.drop_append_of_le_length (by rw [hB]; omega), hcur]
  have hblock : blockOf d B (ps ++ [b]) = cur ++ [b] := by
    rw [blockOf, hdrop, List.take_of_length_le (by simp; omega)]
  unfold StreamAt at h
  rw [← hB, ← hcur] at h
  have hk : streamLength d p ps.length = B * (d + p) + cur.length := by
    rw [streamLength, ← hB, hlen, Nat.mul_add, Nat.mul_comm B d, hB]
    omega
  obtain ⟨s, pss, enc', he, hsd, hcase⟩ := encode_step henc hp hd h (by omega) hb
  have hdata : streamPacket codec d p (ps ++ [b]) (streamLength d p ps.length) = some s.data := by
    obtain ⟨hdiv, hmod⟩ := div_mod_of_eq hk (by omega : cur.length < d + p)
    rw [streamPacket, hdiv, hmod, hblock, blockShard, if_pos (by omega), hsd, flagOf,
      if_pos (by omega), hk, ← h.next, UInt32.ofNat_toNat]
    simp
  have hlen1 : (ps ++ [b]).length = ps.length + 1 := by simp
  refine ⟨s, pss, enc', he, ?_⟩
  rcases hcase with ⟨hlt, rfl, hat⟩ | ⟨hfull, hat, parity, hcw, hps⟩
  · have hdiv : (ps.length + 1) / d = B := by
      rw [← hm, ← hB, Nat.add_assoc, Nat.mul_add_div h0, Nat.div_eq_of_lt (by omega)]
      rfl
    refine ⟨?_, ?_, ?_⟩
    · rwa [StreamAt, hlen1, hdiv, hdrop]
    · rw [streamLength, streamLength, hdiv, ← hB, List.map_nil, List.length_singleton]
      omega
    · intro i x hx
      cases i with
      | zero => rw [← hx]; exact hdata
      | succ i => cases hx
  · have hdiv : (ps.length + 1) / d = B + 1 := by
      rw [← hm, ← hB, Nat.add_assoc, Nat.mul_add_div h0, ← hlen, hfull, Nat.div_self h0]
    have hpl : pss.length = p := by
      rw [← List.length_map Slice.data, hps, ← hcw.parity_length]
      exact length_parityPackets _ _ _
    refine ⟨?_, ?_, ?_⟩
    · have hle : (ps ++ [b]).length ≤ d * (B + 1) := by
        rw [hlen1, Nat.mul_add, hB]
        omega
      rwa [StreamAt, hlen1, hdiv, List.drop_eq_nil_of_le hle]
    · rw [streamLength, streamLength, hdiv, ← hB, List.length_cons, List.length_map, hpl,
        Nat.add_one_mul]
      omega
    · intro i x hx
      cases i with
      | zero => rw [← hx]; exact hdata
      | succ i =>
        rw [List.getElem?_cons_succ, hps, getElem?_parityPackets] at hx
        obtain ⟨q, hq, rfl⟩ := Option.map_eq_some_iff.1 hx
        have hi : i < p := by
          rw [← hcw.parity_length]
          exact (List.getElem?_eq_some_iff.1 hq).1
        have hk' : streamLength d p ps.length + (i + 1) = B * (d + p) + (d + i) := by
          rw [hk]
          omega
        obtain ⟨hdiv', hmod'⟩ := div_mod_of_eq hk' (by omega)
        rw [streamPacket, hdiv', hmod', hblock, blockShard, if_neg (by omega),
          if_pos (by simp; omega), hcw.encode, flagOf, if_neg (by omega), hk',
          Nat.add_sub_cancel_left, ← Nat.add_assoc]
        simp [hq]

end

end Faketcp
