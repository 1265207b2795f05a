import TcpRaw.Fec.Proof.Shards
import TcpRaw.Fec.ReedSolomon21
import TcpRaw.FecV2.Encoder
import TcpRaw.FecV2.Stream

/-!
# The second encoder produces the stream

`EncAt codec d p o enc B cur`: the encoder, with its header at offset `o`, has done `B` blocks and
holds the payloads `cur` of the next one. `encode_step` is one call: the caller's packet stamped in
place, and with the last payload of a block its parity packets, or none of them when the sender was
idle. Either way the next block starts at a multiple of the block size (`skipParity_next`), also
where the sequence ids wrap.
-/

namespace Fecv2

open GoRt Erasure
open Faketcp (blockLen sized packet padTo paddedData putHeader_at zeroTail_ok stripHeaders_at
  writeParity_at bodyFrom exists_of_map_eq length_le_blockLen length_paddedData size_paddedData
  blockLen_append length_sized writeParity stripHeaders blockShard blockOf flagOf blockShard_mono
  div_mod_of_eq)

/-- The payload of a caller's packet, behind the room for the header and the size. -/
def payloadOf (o : Nat) (b : Slice UInt8) : Bytes := b.data.drop (o + 8)

/-- The encoder has done `B` blocks and holds the payloads `cur` of the next one. -/
structure EncAt (codec : Codec UInt8) (d p o : Nat) (enc : FecEncoder) (B : Nat)
    (cur : List Bytes) : Prop where
  dataShards : enc.dataShards = d
  parityShards : enc.parityShards = p
  paws : enc.paws.toNat = pawsOf (d + p)
  headerOffset : enc.headerOffset = o
  payloadOffset : enc.payloadOffset = o + 6
  code : enc.codec = codec
  next : enc.next.toNat = (B * (d + p) + cur.length) % pawsOf (d + p)
  shardCount : enc.shardCount = cur.length
  maxSize : enc.maxSize = if cur = [] then 0 else blockLen cur + (o + 6)
  cache_length : enc.shardCache.length = d + p
  cap : ∀ s ∈ enc.shardCache, s.cap = mtuLimit
  parity_len : ∀ s ∈ enc.shardCache.drop d, o + 6 ≤ s.len
  cached : (enc.shardCache.take cur.length).map (fun s => s.data.drop (o + 6)) = cur.map sized
  payload : ∀ b ∈ cur, b.length + (o + 8) ≤ mtuLimit

/-! ## Sequence ids -/

theorem toNat_next {n k m : Nat} {paws next : UInt32} (hpaws : paws.toNat = pawsOf n)
    (hnext : next.toNat = k % pawsOf n) (hm : k % pawsOf n + m < 2 ^ 32) :
    ((next + UInt32.ofNat m) % paws).toNat = (k + m) % pawsOf n := by
  have hm' : (UInt32.ofNat m).toNat = m :=
    UInt32.toNat_ofNat_of_lt' (Nat.lt_of_le_of_lt (by omega) hm)
  rw [UInt32.toNat_mod, UInt32.toNat_add, hpaws, hnext, hm', Nat.mod_eq_of_lt hm, Nat.mod_add_mod]

theorem mod_pawsOf_add_le {d p : Nat} (h0 : 0 < d) (hp : 0 < p) (hn : d + p ≤ 65536) (B : Nat) :
    (B * (d + p) + d) % pawsOf (d + p) + p ≤ pawsOf (d + p) := by
  set m := (B * (d + p) + d) % pawsOf (d + p) with hm
  have hlt : m < pawsOf (d + p) := Nat.mod_lt _ (pawsOf_pos (by omega) hn)
  have hmod : m % (d + p) = d := by
    rw [hm, mod_pawsOf_mod, Nat.mul_comm, Nat.mul_add_mod, Nat.mod_eq_of_lt (by omega)]
  have hdiv : m / (d + p) < 0xffffffff / (d + p) :=
    Nat.div_lt_of_lt_mul (by rw [Nat.mul_comm]; exact hlt)
  calc m + p = (d + p) * (m / (d + p) + 1) := by
        have := Nat.div_add_mod m (d + p)
        rw [hmod] at this
        rw [Nat.mul_add, Nat.mul_one]
        omega
    _ ≤ (d + p) * (0xffffffff / (d + p)) := Nat.mul_le_mul_left _ hdiv
    _ = pawsOf (d + p) := Nat.mul_comm _ _

theorem toNat_paws {n : Nat} (hn : n ≤ 65536) :
    (0xffffffff / UInt32.ofNat n * UInt32.ofNat n).toNat = pawsOf n := by
  have htn := UInt32.toNat_ofNat_of_lt' (Nat.lt_of_le_of_lt hn (by decide : 65536 < UInt32.size))
  have hquot : (0xffffffff / UInt32.ofNat n).toNat = 0xffffffff / n := by
    rw [UInt32.toNat_div, htn]
    rfl
  rw [UInt32.toNat_mul, hquot, htn]
  exact Nat.mod_eq_of_lt (Nat.lt_of_le_of_lt (pawsOf_le n) (by decide))

/-! ## The stages of a call -/

theorem overwrite_overwrite {α : Type} {l xs ys : List α} {i : Nat} (h : i ≤ l.length) :
    overwrite (overwrite l i xs) (i + xs.length) ys = overwrite l i (xs ++ ys) := by
  have hlen : (l.take i ++ xs).length = i + xs.length := by
    rw [List.length_append, List.length_take, Nat.min_eq_left h]
  rw [overwrite, overwrite, overwrite, List.take_left' hlen, List.drop_append, hlen, List.drop_drop,
    List.drop_eq_nil_of_le (by rw [hlen]; omega), List.length_append]
  simp only [List.append_assoc, List.nil_append]
  congr 4
  omega

theorem drop_take_overwrite {α : Type} {l xs : List α} {i m : Nat} (h : i ≤ l.length)
    (hm : i + xs.length ≤ m) :
    ((overwrite l i xs).take m).drop i = xs ++ (l.take m).drop (i + xs.length) := by
  have hlen : (l.take i).length = i := by rw [List.length_take, Nat.min_eq_left h]
  rw [List.drop_take, overwrite, List.append_assoc, List.drop_left' hlen, List.take_append,
    List.take_of_length_le (by omega), List.drop_take]
  congr 2
  omega

/-- The header and the size, over the eight bytes kept for them in the caller's packet. -/
theorem stamp_ok {enc : FecEncoder} {o : Nat} (hheader : enc.headerOffset = o)
    (hpayload : enc.payloadOffset = o + 6) {b : Slice UInt8} (hb : o + 8 ≤ b.len) :
    ∃ s t, enc.sealData b = .ok (s, { enc with next := (enc.next + 1) % enc.paws }) ∧
      FecEncoder.putSize { enc with next := (enc.next + 1) % enc.paws } s = .ok t ∧ t.len = b.len ∧
      t.data = b.data.take o ++ packet enc.next typeData (sized (payloadOf o b)) := by
  obtain ⟨s, hs, hsl, -, -, hsd⟩ := putHeader_at (show o + 6 ≤ b.len by omega) enc.next typeData
  have h8 : o + 6 + 2 = o + 6 + (leBytes16 (UInt16.ofNat (s.len - (o + 6)))).length := rfl
  obtain ⟨t, ht, htd, htl, -⟩ := Slice.copyRange_data h8 (show o + 6 + 2 ≤ s.len by omega)
  refine ⟨s, t, ?_, ?_, by rw [htl, hsl], ?_⟩
  · rw [FecEncoder.sealData, FecEncoder.sealAs, hheader, hs]
    rfl
  · rw [FecEncoder.putSize]
    simp only [hpayload]
    rw [if_neg (by omega), if_pos (by omega), ht]
  · have hlen : (payloadOf o b).length + 2 = s.len - (o + 6) := by
      rw [payloadOf, List.length_drop, Slice.length_data, hsl]
      omega
    rw [htd, hsd, show o + 6 = o + (leBytes32 enc.next ++ leBytes16 typeData).length from rfl,
      overwrite_overwrite (by rw [Slice.length_data]; omega), overwrite, packet, sized, hlen]
    simp only [List.length_append, length_leBytes32, length_leBytes16, List.append_assoc]
    rfl

section
variable {codec : Codec UInt8} {d p o B : Nat} {enc : FecEncoder} {cur : List Bytes}

theorem EncAt.cacheShard (h : EncAt codec d p o enc B cur) (hn : d + p ≤ 65536) (hp : 0 < p)
    (hcur : cur.length < d) {b : Bytes} (hb : b.length + (o + 8) ≤ mtuLimit) {t : Slice UInt8}
    (hlen : t.len = b.length + (o + 8)) (ht : t.data.drop (o + 6) = sized b) :
    ∃ enc', FecEncoder.cacheShard { enc with next := (enc.next + 1) % enc.paws } t = .ok enc' ∧
      enc'.tsLatestPacket = enc.tsLatestPacket ∧ EncAt codec d p o enc' B (cur ++ [b]) := by
  have hk : enc.shardCount < enc.shardCache.length := by
    rw [h.shardCount, h.cache_length]
    omega
  have hcapk := h.cap _ (List.getElem_mem hk)
  have htc : t.len ≤ (enc.shardCache[enc.shardCount]).cap := by omega
  obtain ⟨u, hu, hul, hua⟩ : ∃ u, (enc.shardCache[enc.shardCount]).upto t.len = .ok u ∧
      u.len = t.len ∧ u.arr = (enc.shardCache[enc.shardCount]).arr :=
    ⟨_, Slice.upto_ok htc, rfl, rfl⟩
  have huc : u.cap = mtuLimit := by rw [← hcapk, Slice.cap, hua]; rfl
  have hsrc : t.len = o + 6 + (t.data.drop (o + 6)).length := by
    rw [List.length_drop, Slice.length_data]
    omega
  obtain ⟨s, hs, hsd, hsl, hsc, -⟩ := Slice.copyRange_data hsrc (show t.len ≤ u.len by omega)
  have hok : FecEncoder.cacheShard { enc with next := (enc.next + 1) % enc.paws } t = .ok
      { enc with
        next := (enc.next + 1) % enc.paws
        shardCache := enc.shardCache.set enc.shardCount s
        shardCount := enc.shardCount + 1
        maxSize := if t.len > enc.maxSize then t.len else enc.maxSize } := by
    unfold FecEncoder.cacheShard
    simp only [h.payloadOffset]
    rw [index_ok hk, ok_bind, hu, ok_bind, hs, ok_bind, setIndex_ok hk, ok_bind]
    rfl
  refine ⟨_, hok, rfl, ?_⟩
  have hid := mod_pawsOf_lt (show 0 < d + p by omega) hn (B * (d + p) + cur.length)
  exact
    { h with
      next := by
        rw [List.length_append, List.length_singleton, ← Nat.add_assoc]
        exact toNat_next (m := 1) h.paws h.next (by omega)
      shardCount := by simp [h.shardCount]
      maxSize := by
        simp only [h.maxSize, hlen, blockLen_append]
        cases cur with
        | nil =>
          simp only [if_true, List.nil_append, reduceCtorEq, if_false, blockLen]
          split <;> omega
        | cons c cur =>
          simp only [reduceCtorEq, if_false, List.cons_append]
          split <;> omega
      cache_length := by simpa using h.cache_length
      cap := fun s' hs' => by
        rcases List.mem_or_eq_of_mem_set hs' with hs' | rfl
        · exact h.cap s' hs'
        · rw [hsc, huc]
      parity_len := by
        simp only [h.shardCount]
        rw [List.drop_set_of_lt hcur]
        exact h.parity_len
      cached := by
        have hk' : cur.length < enc.shardCache.length := by rw [← h.shardCount]; exact hk
        have hdrop : s.data.drop (o + 6) = sized b := by
          rw [hsd, ht, overwrite, List.append_assoc, List.drop_left' (by
            rw [List.length_take, Slice.length_data]
            omega), List.drop_eq_nil_of_le (by
            rw [Slice.length_data, length_sized]
            omega), List.append_nil]
        simp only [h.shardCount, List.length_append, List.length_singleton]
        rw [List.take_succ_eq_append_getElem (by simpa using hk'),
          List.take_set_of_le (Nat.le_refl _)]
        simp [h.cached, hdrop]
      payload := fun b' hb' => by
        rcases List.mem_append.1 hb' with hb' | hb'
        · exact h.payload b' hb'
        · rw [List.mem_singleton.1 hb']
          exact hb }

/-! ## A block's parity -/

theorem clearTails_ok {m : Nat} (hm : m ≤ mtuLimit) :
    ∀ (shards : List (Slice UInt8)), (∀ s ∈ shards, o ≤ s.len ∧ s.len ≤ m ∧ s.cap = mtuLimit) →
      ∃ out, clearTails m shards = .ok out ∧ out.length = shards.length ∧
        (∀ s ∈ out, s.cap = mtuLimit) ∧
        out.map (bodyFrom o m) = shards.map fun s => padTo (m - o) (s.data.drop o)
  | [], _ => ⟨[], rfl, rfl, by simp, rfl⟩
  | s :: shards, h => by
    obtain ⟨ho, hl, hc⟩ := h s (by simp)
    obtain ⟨out, hout, hlen, hcap, hbody⟩ :=
      clearTails_ok hm shards fun s' hs' => h s' (by simp [hs'])
    obtain ⟨t, ht, htc, hb⟩ := zeroTail_ok ho hl (show m ≤ s.cap by omega) (Nat.le_refl _)
    refine ⟨t :: out, ?_, by simp [hlen], ?_, by simp [hb, hbody]⟩
    · rw [clearTails, ht, ok_bind, hout]
      rfl
    · intro s' hs'
      rcases List.mem_cons.1 hs' with rfl | hs'
      · rw [htc, hc]
      · exact hcap s' hs'

/-- The packets of the parity shards of a block, from packet `k` of the stream on. -/
def parityPackets (n k : Nat) (parity : List Bytes) : List Bytes :=
  parity.mapIdx fun j => packet (UInt32.ofNat ((k + j) % pawsOf n)) typeParity

theorem parityPackets_cons (n k : Nat) (s : Bytes) (parity : List Bytes) :
    parityPackets n k (s :: parity) =
      packet (UInt32.ofNat (k % pawsOf n)) typeParity s :: parityPackets n (k + 1) parity := by
  simp [parityPackets, List.mapIdx_cons, Nat.add_assoc, Nat.add_comm 1]

theorem getElem?_parityPackets (n k j : Nat) (parity : List Bytes) :
    (parityPackets n k parity)[j]? =
      parity[j]?.map (packet (UInt32.ofNat ((k + j) % pawsOf n)) typeParity) := by
  simp [parityPackets, List.getElem?_mapIdx]

/-- **Sealing the parity packets**: consecutive ids, the shards behind them. -/
theorem sealAll_ok {n : Nat} (h0 : 0 < n) (hn : n ≤ 65536) :
    ∀ (shards : List (Slice UInt8)) (k : Nat) (enc : FecEncoder), enc.headerOffset = o →
      enc.paws.toNat = pawsOf n → enc.next.toNat = k % pawsOf n → o + 6 ≤ enc.maxSize →
      (∀ s ∈ shards, enc.maxSize ≤ s.cap ∧ o + 6 ≤ s.len) →
      ∃ out next, enc.sealAll shards = .ok (out, { enc with next }) ∧
        out.map (fun s => s.data.drop o) =
          parityPackets n k (shards.map (bodyFrom (o + 6) enc.maxSize)) ∧
        out.map (fun s => (s.cap, s.len)) = shards.map (fun s => (s.cap, enc.maxSize)) ∧
        next.toNat = (k + shards.length) % pawsOf n
  | [], k, enc, _, _, hk, _, _ => ⟨[], enc.next, rfl, rfl, rfl, hk⟩
  | s :: shards, k, enc, ho, hp, hk, hmax, h => by
    obtain ⟨hc, hl⟩ := h s (by simp)
    obtain ⟨t, ht, -, htc, harr, -⟩ := putHeader_at hl enc.next typeParity
    obtain ⟨u, hu, hua, hul⟩ : ∃ u, t.upto enc.maxSize = .ok u ∧ u.arr = t.arr ∧
        u.len = enc.maxSize := ⟨_, Slice.upto_ok (by omega), rfl, rfl⟩
    have hlt := mod_pawsOf_lt h0 hn k
    have hnext : ((enc.next + 1) % enc.paws).toNat = (k + 1) % pawsOf n :=
      toNat_next (m := 1) hp hk (by omega)
    obtain ⟨out, next, hout, hd, hcl, hnx⟩ :=
      sealAll_ok h0 hn shards (k + 1) { enc with next := (enc.next + 1) % enc.paws } ho hp hnext
        hmax fun s' hs' => h s' (by simp [hs'])
    have hbody : u.data.drop o =
        packet (UInt32.ofNat (k % pawsOf n)) typeParity (bodyFrom (o + 6) enc.maxSize s) := by
      have hle : o ≤ s.arr.length := Nat.le_trans (by omega) s.le_cap
      rw [Slice.data, hua, hul, harr, drop_take_overwrite hle hmax, packet, bodyFrom, ← hk,
        UInt32.ofNat_toNat]
      rfl
    refine ⟨u :: out, next, ?_, ?_, ?_, ?_⟩
    · have hseal : enc.sealParity s = .ok (t, { enc with next := (enc.next + 1) % enc.paws }) := by
        rw [FecEncoder.sealParity, FecEncoder.sealAs, ho, ht]
        rfl
      rw [FecEncoder.sealAll, hseal, ok_bind]
      dsimp only
      rw [hu, ok_bind, hout]
      rfl
    · rw [List.map_cons, hd, hbody, List.map_cons, parityPackets_cons]
    · have huc : u.cap = s.cap := by rw [Slice.cap, hua]; exact htc
      simp only [List.map_cons, hcl, hul, huc]
    · rw [hnx, List.length_cons]
      congr 1
      omega

theorem EncAt.shard_len (h : EncAt codec d p o enc B cur) {s : Slice UInt8}
    (hs : s ∈ enc.shardCache.take cur.length) :
    o + 6 ≤ s.len ∧ s.len ≤ blockLen cur + (o + 6) := by
  have hmem : s.data.drop (o + 6) ∈ cur.map sized := by
    rw [← h.cached]
    exact List.mem_map_of_mem hs
  obtain ⟨b, hb, he⟩ := List.mem_map.1 hmem
  have hlen := congrArg List.length he
  have hle := length_le_blockLen hb
  rw [length_sized, List.length_drop, Slice.length_data] at hlen
  omega

theorem EncAt.blockLen_le (h : EncAt codec d p o enc B cur) (hcur : cur ≠ []) :
    blockLen cur + (o + 6) ≤ mtuLimit := by
  obtain ⟨c, hc⟩ := List.exists_mem_of_ne_nil cur hcur
  have h1 := h.payload c hc
  have : blockLen cur ≤ mtuLimit - (o + 6) := Faketcp.blockLen_le fun b hb => by
    have := h.payload b hb
    omega
  omega

theorem EncAt.parity_shard (h : EncAt codec d p o enc B cur) {s : Slice UInt8}
    (hs : s ∈ enc.shardCache.drop d) : s.cap = mtuLimit ∧ o + 6 ≤ s.len :=
  ⟨h.cap s (List.mem_of_mem_drop hs), h.parity_len s hs⟩

theorem EncAt.cleared (h : EncAt codec d p o enc B cur) (hcur : cur.length = d)
    (hmax : enc.maxSize = blockLen cur + (o + 6)) (hcap : enc.maxSize ≤ mtuLimit) :
    ∃ shards, clearTails enc.maxSize (enc.shardCache.take d) = .ok shards ∧ shards.length = d ∧
      (∀ s ∈ shards, s.cap = mtuLimit) ∧
      shards.map (bodyFrom (o + 6) enc.maxSize) = paddedData cur := by
  obtain ⟨shards, hclear, hlen, hsc, hbody⟩ := clearTails_ok (o := o + 6) hcap
    (enc.shardCache.take d) fun s hs => by
      have := h.shard_len (s := s) (by rw [hcur]; exact hs)
      exact ⟨this.1, hmax ▸ this.2, h.cap s (List.mem_of_mem_take hs)⟩
  rw [List.length_take, h.cache_length, Nat.min_eq_left (Nat.le_add_right d p)] at hlen
  refine ⟨shards, hclear, hlen, hsc, ?_⟩
  have hcached := h.cached
  rw [hcur] at hcached
  calc shards.map (bodyFrom (o + 6) enc.maxSize)
      = ((enc.shardCache.take d).map fun s => s.data.drop (o + 6)).map (padTo (blockLen cur)) := by
        rw [hbody, hmax, Nat.add_sub_cancel, List.map_map]
        rfl
    _ = paddedData cur := by
        rw [hcached, List.map_map]
        rfl

theorem EncAt.sealed (h : EncAt codec d p o enc B cur) (h0 : 0 < d) (hn : d + p ≤ 65536)
    (hcur : cur.length = d) (hmax : enc.maxSize = blockLen cur + (o + 6))
    (hcap : enc.maxSize ≤ mtuLimit) {data parity : List Bytes}
    (hcw : codec.Codeword d p (blockLen cur) data parity) :
    ∃ written ps next, writeParity (o + 6) enc.maxSize (enc.shardCache.drop d) parity =
      .ok written ∧ enc.sealAll written = .ok (ps, { enc with next }) ∧ ps.length = p ∧
      (∀ s ∈ ps, s.cap = mtuLimit ∧ s.len = enc.maxSize) ∧
      ps.map (fun s => s.data.drop o) = parityPackets (d + p) (B * (d + p) + d) parity ∧
      next.toNat = ((B + 1) * (d + p)) % pawsOf (d + p) := by
  obtain ⟨written, hw, hwb, hwc⟩ := writeParity_at (o := o + 6) (m := enc.maxSize) (by omega)
    (enc.shardCache.drop d) parity
    (by rw [hcw.parity_length, List.length_drop, h.cache_length, Nat.add_sub_cancel_left])
    (fun s hs => by rw [hcw.parity_size s hs, hmax, Nat.add_sub_cancel])
    (fun s hs => ⟨by rw [(h.parity_shard hs).1]; exact hcap, (h.parity_shard hs).2⟩)
  have hwritten : ∀ s ∈ written, s.cap = mtuLimit ∧ o + 6 ≤ s.len := by
    intro s hs
    obtain ⟨s', hs', he⟩ := exists_of_map_eq hwc hs
    rw [Prod.mk.injEq] at he
    rw [← he.1, ← he.2]
    exact h.parity_shard hs'
  have hwl : written.length = p := by
    rw [← List.length_map (bodyFrom (o + 6) enc.maxSize), hwb, hcw.parity_length]
  obtain ⟨ps, next, hseal, hmd, hmc, hnext⟩ := sealAll_ok (o := o) (by omega : 0 < d + p) hn written
    (B * (d + p) + d) enc h.headerOffset h.paws (by rw [h.next, hcur]) (by omega)
    fun s hs => ⟨by rw [(hwritten s hs).1]; exact hcap, (hwritten s hs).2⟩
  rw [hwb] at hmd
  refine ⟨written, ps, next, hw, hseal, ?_, fun s hs => ?_, hmd, ?_⟩
  · have := congrArg List.length hmc
    rwa [List.length_map, List.length_map, hwl] at this
  · obtain ⟨s', hs', he⟩ := exists_of_map_eq hmc hs
    rw [Prod.mk.injEq] at he
    exact ⟨by rw [← he.1, (hwritten s' hs').1], he.2.symm⟩
  · rw [hnext, hwl, Nat.add_one_mul, Nat.add_assoc]

theorem EncAt.next_block (h : EncAt codec d p o enc B cur) {cache : List (Slice UInt8)}
    {next : UInt32} {now : Int64} (hlen : cache.length = d + p)
    (hcap : ∀ s ∈ cache, s.cap = mtuLimit) (hparity : ∀ s ∈ cache.drop d, o + 6 ≤ s.len)
    (hnext : next.toNat = ((B + 1) * (d + p)) % pawsOf (d + p)) :
    EncAt codec d p o
      { enc with next, shardCache := cache, shardCount := 0, maxSize := 0, tsLatestPacket := now }
      (B + 1) [] :=
  { h with
    next := hnext
    shardCount := rfl
    maxSize := rfl
    cache_length := hlen
    cap := hcap
    parity_len := hparity
    cached := rfl
    payload := by simp }

/-- **The parity of a full block**, and the encoder ready for the next one. -/
theorem encodeBlock_ok (henc : codec.Encodes d p) (h0 : 0 < d) (hn : d + p ≤ 65536)
    (h : EncAt codec d p o enc B cur) (hcur : cur.length = d) (snmp : Snmp) (now : Int64) :
    ∃ parity ps enc', codec.Codeword d p (blockLen cur) (paddedData cur) parity ∧
      enc.encodeBlock snmp = .ok (ps, enc', snmp) ∧
      ps.map (fun s => s.data.drop o) = parityPackets (d + p) (B * (d + p) + d) parity ∧
      EncAt codec d p o { enc' with shardCount := 0, maxSize := 0, tsLatestPacket := now }
        (B + 1) [] := by
  obtain ⟨c, hc⟩ := List.exists_mem_of_length_pos (by omega : 0 < cur.length)
  have hlen0 := length_le_blockLen hc
  have hmax : enc.maxSize = blockLen cur + (o + 6) := by
    rw [h.maxSize, if_neg (List.ne_nil_of_mem hc)]
  have hcap : enc.maxSize ≤ mtuLimit := hmax ▸ h.blockLen_le (List.ne_nil_of_mem hc)
  obtain ⟨parity, hcw⟩ := henc ((length_paddedData cur).trans hcur)
    (show 0 < blockLen cur by omega) fun s hs => size_paddedData hs
  obtain ⟨shards, hclear, hsl, hsc, hbody⟩ := h.cleared hcur hmax hcap
  obtain ⟨written, ps, next, hw, hseal, hpl, hps, hdata, hnext⟩ := h.sealed h0 hn hcur hmax hcap hcw
  -- what the codec sees
  obtain ⟨cache, hst, hcd⟩ := stripHeaders_at (o := o + 6) (m := enc.maxSize) (by omega)
    (shards ++ enc.shardCache.drop d) fun s hs => by
      rcases List.mem_append.1 hs with hs | hs
      · rw [hsc s hs]; exact hcap
      · rw [(h.parity_shard hs).1]; exact hcap
  have htake : (cache.take d).map Slice.data = paddedData cur := by
    rw [List.map_take, hcd, List.map_append, hbody, List.take_left' (by
      rw [length_paddedData, hcur])]
  obtain ⟨enc', henc'⟩ : ∃ enc', enc' = { enc with next, shardCache := shards ++ ps } := ⟨_, rfl⟩
  have hok : enc.encodeBlock snmp = .ok (ps, enc', snmp) := by
    unfold FecEncoder.encodeBlock
    rw [h.dataShards, h.payloadOffset, hclear, ok_bind, hst, ok_bind, htake, h.code, hcw.encode]
    dsimp only
    rw [hw, ok_bind, hseal, henc']
    rfl
  refine ⟨parity, ps, enc', hcw, hok, hdata, ?_⟩
  rw [henc']
  refine h.next_block ?_ ?_ ?_ hnext
  · rw [List.length_append, hsl, hpl]
  · intro s hs
    rcases List.mem_append.1 hs with hs | hs
    · exact hsc s hs
    · exact (hps s hs).1
  · intro s hs
    rw [List.drop_left' hsl] at hs
    rw [(hps s hs).2]
    omega

/-- **A block without parity**: the next one starts where it would have started. -/
theorem skipParity_ok (h0 : 0 < d) (hp : 0 < p) (hn : d + p ≤ 65536)
    (h : EncAt codec d p o enc B cur) (hcur : cur.length = d) (now : Int64) :
    EncAt codec d p o
      { enc.skipParity with shardCount := 0, maxSize := 0, tsLatestPacket := now } (B + 1) [] := by
  refine h.next_block h.cache_length h.cap h.parity_len ?_
  have hnext := h.next
  have hle := mod_pawsOf_add_le h0 hp hn B
  have := pawsOf_le (d + p)
  rw [hcur] at hnext
  show ((enc.next + UInt32.ofNat enc.parityShards) % enc.paws).toNat = _
  rw [h.parityShards, toNat_next h.paws hnext (by omega), Nat.add_one_mul, Nat.add_assoc]

/-! ## A whole call -/

/-- The parity packets that the last call of a block returns. -/
def ParityOf (codec : Codec UInt8) (d p o B : Nat) (blk : List Bytes) (ps : List (Slice UInt8)) :
    Prop :=
  ∃ parity, codec.Codeword d p (blockLen blk) (paddedData blk) parity ∧
    ps.map (fun s => s.data.drop o) = parityPackets (d + p) (B * (d + p) + d) parity

/-- **One call of `encode`**: the caller's packet is stamped in place. With the last payload of a
block come its parity packets if the data is continuous, and none otherwise. -/
theorem encode_step (henc : codec.Encodes d p) (hp : 0 < p) (hn : d + p ≤ 65536)
    (h : EncAt codec d p o enc B cur) (hcur : cur.length < d) (snmp : Snmp) {call : Call}
    (hlo : o + 8 ≤ call.b.len) (hhi : call.b.len ≤ mtuLimit) :
    ∃ t ps enc', enc.encode snmp call = .ok (t, ps, enc', snmp) ∧
      t.data = call.b.data.take o ++
        packet (UInt32.ofNat ((B * (d + p) + cur.length) % pawsOf (d + p))) typeData
          (sized (payloadOf o call.b)) ∧
      enc'.tsLatestPacket = call.now ∧
      ((cur.length + 1 < d ∧ ps = [] ∧ EncAt codec d p o enc' B (cur ++ [payloadOf o call.b])) ∨
        (cur.length + 1 = d ∧ EncAt codec d p o enc' (B + 1) [] ∧
          (enc.Continuous call.rto call.now →
            ParityOf codec d p o B (cur ++ [payloadOf o call.b]) ps) ∧
          (¬ enc.Continuous call.rto call.now → ps = []))) := by
  obtain ⟨s, t, hs, ht, htl, htd⟩ := stamp_ok h.headerOffset h.payloadOffset hlo
  have hlen : (payloadOf o call.b).length + (o + 8) = call.b.len := by
    rw [payloadOf, List.length_drop, Slice.length_data]
    omega
  have hdrop : t.data.drop (o + 6) = sized (payloadOf o call.b) := by
    rw [htd, packet, ← List.append_assoc, List.drop_left' (by
      simp only [List.length_append, List.length_take, Slice.length_data, length_leBytes32,
        length_leBytes16]
      omega)]
  obtain ⟨enc1, h1, hts, hat⟩ := h.cacheShard hn hp hcur (by omega) (by omega) hdrop
  have hcount : enc1.shardCount = enc1.dataShards ↔ cur.length + 1 = d := by
    rw [hat.shardCount, hat.dataShards, List.length_append, List.length_singleton]
  have hid : enc.next = UInt32.ofNat ((B * (d + p) + cur.length) % pawsOf (d + p)) := by
    rw [← h.next, UInt32.ofNat_toNat]
  have hcont : enc1.Continuous call.rto call.now ↔ enc.Continuous call.rto call.now := by
    rw [FecEncoder.Continuous, hts]
    rfl
  rw [hid] at htd
  unfold FecEncoder.encode
  rw [hs, ok_bind]
  dsimp only
  rw [ht, ok_bind, h1, ok_bind]
  by_cases hfull : cur.length + 1 = d
  · have hcur' : (cur ++ [payloadOf o call.b]).length = d := by
      rw [List.length_append, List.length_singleton]
      exact hfull
    rw [if_pos (hcount.2 hfull)]
    by_cases hc : enc1.Continuous call.rto call.now
    · obtain ⟨parity, ps, enc2, hcw, he, hps, hat2⟩ :=
        encodeBlock_ok henc (by omega) hn hat hcur' snmp call.now
      rw [if_pos hc, he]
      exact ⟨t, ps, _, rfl, htd, rfl, .inr ⟨hfull, hat2, fun _ => ⟨parity, hcw, hps⟩,
        fun hnc => absurd (hcont.1 hc) hnc⟩⟩
    · rw [if_neg hc]
      exact ⟨t, [], _, rfl, htd, rfl, .inr
        ⟨hfull, skipParity_ok (by omega) hp hn hat hcur' call.now,
        fun hc' => absurd (hcont.2 hc') hc, fun _ => rfl⟩⟩
  · rw [if_neg (mt hcount.1 hfull)]
    exact ⟨t, [], _, rfl, htd, rfl, .inl ⟨by omega, rfl, { hat with }⟩⟩

/-! ## Runs -/

/-- The number of the data packet of call `i`. -/
def numberOf (d p i : Nat) : Nat := i / d * (d + p) + i % d

/-- The numbers of the packets that call `i` returns: its data packet, and at the end of a block of
continuous data the parity packets. -/
def sentBy (d p i : Nat) (continuous : Bool) : List Nat :=
  numberOf d p i ::
    if i % d + 1 = d ∧ continuous then (List.range p).map (i / d * (d + p) + d + ·) else []

/-- The time of the call before call `i`, `ts` before the first one. -/
def timeBefore (ts : Int64) : List Call → Nat → Int64
  | _, 0 => ts
  | [], _ + 1 => ts
  | call :: calls, i + 1 => timeBefore call.now calls i

/-- The packets of a call as they are sent, behind the caller's bytes. -/
def wire (o : Nat) (out : Slice UInt8 × List (Slice UInt8)) : List Bytes :=
  out.1.data.drop o :: out.2.map fun s => s.data.drop o

/-- The packets `xs` are those numbered `ks` of the stream. -/
def AreNumbered (codec : Codec UInt8) (d p : Nat) (payloads : List Bytes) :
    List Bytes → List Nat → Prop :=
  List.Forall₂ fun x k => streamPacket codec d p payloads k = some x

/-- The encoder after the payloads `ps`. -/
def StreamAt (codec : Codec UInt8) (d p o : Nat) (enc : FecEncoder) (ps : List Bytes) : Prop :=
  EncAt codec d p o enc (ps.length / d) (ps.drop (d * (ps.length / d)))

theorem streamPacket_mono {ps : List Bytes} (qs : List Bytes) {k : Nat} {x : Bytes}
    (h : streamPacket codec d p ps k = some x) : streamPacket codec d p (ps ++ qs) k = some x := by
  obtain ⟨s, hs, rfl⟩ := Option.map_eq_some_iff.1 h
  rw [streamPacket, blockShard_mono hs]
  rfl

theorem streamPacket_at {ps : List Bytes} {j : Nat} (hj : j < d + p) :
    streamPacket codec d p ps (B * (d + p) + j) =
      (blockShard codec d (blockOf d B ps) j).map
        (packet (UInt32.ofNat ((B * (d + p) + j) % pawsOf (d + p))) (flagOf d j)) := by
  obtain ⟨hdiv, hmod⟩ := div_mod_of_eq rfl hj
  rw [streamPacket, hdiv, hmod]

theorem ParityOf.numbered {ps : List Bytes} {P : List (Slice UInt8)}
    (h : ParityOf codec d p o B (blockOf d B ps) P) :
    AreNumbered codec d p ps (P.map fun s => s.data.drop o)
      ((List.range p).map (B * (d + p) + d + ·)) := by
  obtain ⟨parity, hcw, hP⟩ := h
  rw [AreNumbered, hP, List.forall₂_iff_get]
  refine ⟨by simp [parityPackets, hcw.parity_length], fun j h1 h2 => ?_⟩
  have hj : j < p := by simpa using h2
  have hblk : (blockOf d B ps).length = d := by rw [← length_paddedData, hcw.data_length]
  have hget : (parityPackets (d + p) (B * (d + p) + d) parity)[j]? =
      some ((parityPackets (d + p) (B * (d + p) + d) parity).get ⟨j, h1⟩) :=
    List.getElem?_eq_getElem h1
  have hk : ((List.range p).map (B * (d + p) + d + ·)).get ⟨j, h2⟩ = B * (d + p) + (d + j) := by
    simp [Nat.add_assoc]
  rw [hk, streamPacket_at (by omega), ← hget, getElem?_parityPackets, blockShard, if_neg (by omega),
    if_pos hblk, hcw.encode, flagOf, if_neg (by omega), Nat.add_sub_cancel_left, ← Nat.add_assoc]
  rfl

/-- **One call in the stream.** -/
theorem encode_stream (henc : codec.Encodes d p) (h0 : 0 < d) (hp : 0 < p) (hn : d + p ≤ 65536)
    {ps : List Bytes} (h : StreamAt codec d p o enc ps) (snmp : Snmp) {call : Call}
    (hlo : o + 8 ≤ call.b.len) (hhi : call.b.len ≤ mtuLimit) :
    ∃ t P enc', enc.encode snmp call = .ok (t, P, enc', snmp) ∧
      StreamAt codec d p o enc' (ps ++ [payloadOf o call.b]) ∧ enc'.tsLatestPacket = call.now ∧
      t.data.take o = call.b.data.take o ∧
      AreNumbered codec d p (ps ++ [payloadOf o call.b]) (wire o (t, P))
        (sentBy d p ps.length (enc.Continuous call.rto call.now)) := by
  obtain ⟨B, hB⟩ : ∃ B, B = ps.length / d := ⟨_, rfl⟩
  obtain ⟨cur, hcur⟩ : ∃ cur, cur = ps.drop (d * B) := ⟨_, rfl⟩
  have hm := Nat.div_add_mod ps.length d
  have hr := Nat.mod_lt ps.length h0
  have hlen : cur.length = ps.length % d := by
    rw [hcur, List.length_drop, hB]
    omega
  have hdrop : (ps ++ [payloadOf o call.b]).drop (d * B) = cur ++ [payloadOf o call.b] := by
    rw [List.drop_append_of_le_length (by rw [hB]; omega), hcur]
  have hblock : blockOf d B (ps ++ [payloadOf o call.b]) = cur ++ [payloadOf o call.b] := by
    rw [blockOf, hdrop, List.take_of_length_le (by simp; omega)]
  unfold StreamAt at h
  rw [← hB, ← hcur] at h
  obtain ⟨t, P, enc', he, htd, hts, hcase⟩ := encode_step henc hp hn h (by omega) snmp hlo hhi
  have htake : (call.b.data.take o).length = o := by
    rw [List.length_take, Slice.length_data]
    omega
  have hdata : streamPacket codec d p (ps ++ [payloadOf o call.b]) (numberOf d p ps.length) =
      some (t.data.drop o) := by
    rw [numberOf, ← hB, ← hlen, streamPacket_at (by omega), hblock, blockShard, if_pos (by omega),
      htd, List.drop_left' htake, flagOf, if_pos (by omega)]
    simp
    rfl
  have hlen1 : (ps ++ [payloadOf o call.b]).length = ps.length + 1 := by simp
  have hkept : t.data.take o = call.b.data.take o := by rw [htd, List.take_left' htake]
  rcases hcase with ⟨hlt, rfl, hat⟩ | ⟨hfull, hat, hcont, hidle⟩
  · have hdiv : (ps.length + 1) / d = B := by
      rw [← hm, ← hB, Nat.add_assoc, Nat.mul_add_div h0, Nat.div_eq_of_lt (by omega)]
      rfl
    refine ⟨t, [], enc', he, by rwa [StreamAt, hlen1, hdiv, hdrop], hts, hkept, ?_⟩
    rw [sentBy, if_neg fun hc => by omega]
    exact .cons hdata .nil
  · have hdiv : (ps.length + 1) / d = B + 1 := by
      rw [← hm, ← hB, Nat.add_assoc, Nat.mul_add_div h0, ← hlen, hfull, Nat.div_self h0]
    have hle : (ps ++ [payloadOf o call.b]).length ≤ d * (B + 1) := by
      rw [hlen1, Nat.mul_add, hB]
      omega
    refine ⟨t, P, enc', he, by rwa [StreamAt, hlen1, hdiv, List.drop_eq_nil_of_le hle], hts, hkept,
      ?_⟩
    refine .cons hdata ?_
    by_cases hc : enc.Continuous call.rto call.now
    · rw [if_pos ⟨by omega, by simpa using hc⟩, ← hB]
      exact ParityOf.numbered (hblock ▸ hcont hc)
    · rw [if_neg fun h' => hc (by simpa using h'.2), hidle hc]
      exact .nil

theorem AreNumbered.mono {payloads : List Bytes} (qs : List Bytes) {xs : List Bytes} {ks : List Nat}
    (h : AreNumbered codec d p payloads xs ks) : AreNumbered codec d p (payloads ++ qs) xs ks :=
  List.Forall₂.imp (fun _ _ hx => streamPacket_mono qs hx) h

theorem streamAt_new {rs : Nat → Nat → Option (Codec UInt8)} (hrs : rs d p = some codec)
    (h0 : 0 < d) (hp : 0 < p) (hn : d + p ≤ 65536) (ho : o + 6 ≤ mtuLimit) :
    ∃ enc, newFECEncoder rs d p o = some enc ∧ enc.tsLatestPacket = 0 ∧
      StreamAt codec d p o enc [] := by
  refine ⟨_, by rw [newFECEncoder, if_neg (by omega), hrs]; rfl, rfl, ?_⟩
  simp only [StreamAt, List.length_nil, Nat.zero_div, List.drop_nil]
  exact
    { dataShards := rfl, parityShards := rfl, paws := toNat_paws hn, headerOffset := rfl
      payloadOffset := rfl, code := rfl
      next := by simp
      shardCount := rfl, maxSize := rfl
      cache_length := List.length_replicate
      cap := fun s hs => by rw [List.eq_of_mem_replicate hs]; exact List.length_replicate
      parity_len := fun s hs => by
        rw [List.eq_of_mem_replicate (List.mem_of_mem_drop hs)]
        show o + 6 ≤ (List.replicate mtuLimit (0 : UInt8)).length
        rw [List.length_replicate]
        exact ho
      cached := rfl
      payload := by simp }

/-- **A run of calls**, from where the encoder is in the stream. -/
theorem encodeAll_stream (henc : codec.Encodes d p) (h0 : 0 < d) (hp : 0 < p) (hn : d + p ≤ 65536)
    (snmp : Snmp) : ∀ (calls : List Call) {enc : FecEncoder} {ps : List Bytes},
      StreamAt codec d p o enc ps → (∀ c ∈ calls, o + 8 ≤ c.b.len ∧ c.b.len ≤ mtuLimit) →
      ∃ outs enc', FecEncoder.encodeAll calls enc snmp = .ok (outs, enc', snmp) ∧
        outs.length = calls.length ∧
        ∀ i call, calls[i]? = some call → ∃ t P, outs[i]? = some (t, P) ∧
          t.data.take o = call.b.data.take o ∧
          AreNumbered codec d p (ps ++ calls.map fun c => payloadOf o c.b) (wire o (t, P))
            (sentBy d p (ps.length + i)
              (call.now - timeBefore enc.tsLatestPacket calls i < call.rto.toUInt64.toInt64)) := by
  intro calls
  induction calls with
  | nil =>
    intro enc ps _ _
    refine ⟨[], enc, rfl, rfl, fun i call hi => ?_⟩
    cases hi
  | cons c calls ih =>
    intro enc ps h hcalls
    obtain ⟨hlo, hhi⟩ := hcalls c (by simp)
    obtain ⟨t, P, enc1, he, hat, hts, hkept, hnum⟩ := encode_stream henc h0 hp hn h snmp hlo hhi
    obtain ⟨outs, enc2, hrest, hlen, hall⟩ := ih hat fun c' hc' => hcalls c' (by simp [hc'])
    refine ⟨(t, P) :: outs, enc2, ?_, by simp [hlen], fun i call hi => ?_⟩
    · rw [FecEncoder.encodeAll, he, ok_bind]
      dsimp only
      rw [hrest]
      rfl
    · cases i with
      | zero =>
        obtain rfl := Option.some.inj hi
        refine ⟨t, P, rfl, hkept, ?_⟩
        have := hnum.mono (calls.map fun c => payloadOf o c.b)
        rwa [List.append_assoc] at this
      | succ i =>
        obtain ⟨t', P', ho, hk', hn'⟩ := hall i call hi
        refine ⟨t', P', ho, hk', ?_⟩
        rw [List.append_assoc, List.length_append, List.length_singleton, hts,
          Nat.add_right_comm] at hn'
        exact hn'

/-- **The encoder's specification**, for a codec that encodes equal-length shards and packets with
room for the header, of `o + 8` to `mtuLimit` bytes, whenever they are handed over: no call panics,
and each leaves the caller's bytes in front of the header as they are. Call `i` stamps its packet as
data packet `i % d` of block `i / d`. With the last packet of a block it returns the block's parity
packets if less than `rto` has passed since the call before, and no packet otherwise; the ids are
then left out, so that every block starts at a multiple of the block size, also where they wrap. -/
theorem encoder_streams {rs : Nat → Nat → Option (Codec UInt8)} (hlim : Faketcp.ShardLimit rs)
    (hrs : rs d p = some codec) (henc : codec.Encodes d p) (h0 : 0 < d) (hp : 0 < p)
    (ho : o + 8 ≤ mtuLimit) {calls : List Call}
    (hcalls : ∀ c ∈ calls, o + 8 ≤ c.b.len ∧ c.b.len ≤ mtuLimit) (snmp : Snmp) :
    ∃ enc outs enc', newFECEncoder rs d p o = some enc ∧
      FecEncoder.encodeAll calls enc snmp = .ok (outs, enc', snmp) ∧ outs.length = calls.length ∧
      ∀ i call, calls[i]? = some call → ∃ t P, outs[i]? = some (t, P) ∧
        t.data.take o = call.b.data.take o ∧
        List.Forall₂
          (fun x k => streamPacket codec d p (calls.map fun c => payloadOf o c.b) k = some x)
          (t.data.drop o :: P.map fun s => s.data.drop o)
          (sentBy d p i (call.now - timeBefore 0 calls i < call.rto.toUInt64.toInt64)) := by
  have hn := hlim d p codec hrs
  obtain ⟨enc, hnew, hts, hat⟩ := streamAt_new (o := o) hrs h0 hp hn (by omega)
  obtain ⟨outs, enc', hrun, hlen, hall⟩ := encodeAll_stream henc h0 hp hn snmp calls hat hcalls
  refine ⟨enc, outs, enc', hnew, hrun, hlen, fun i call hi => ?_⟩
  obtain ⟨t, P, hout, hkept, hnum⟩ := hall i call hi
  rw [List.nil_append, List.length_nil, Nat.zero_add, hts] at hnum
  exact ⟨t, P, hout, hkept, hnum⟩

end

/-- A block of two packets 50 ms apart behind two bytes of the caller, and one of packets 200 ms
apart: the first has its parity packet, the second has none. -/
theorem encoder_streams_rs21 :
    ∃ enc outs enc', newFECEncoder Faketcp.newRs21 2 1 2 = some enc ∧
      FecEncoder.encodeAll
        [⟨Slice.ofList (List.replicate 10 0 ++ [7]), 100, 1000⟩,
          ⟨Slice.ofList (List.replicate 10 0 ++ [8, 9]), 100, 1050⟩,
          ⟨Slice.ofList (List.replicate 10 0 ++ [5]), 100, 1100⟩,
          ⟨Slice.ofList (List.replicate 10 0 ++ [6]), 100, 1300⟩] enc newSnmp =
        .ok (outs, enc', newSnmp) ∧
      (∃ t P, outs[1]? = some (t, P) ∧ P.length = 1) ∧ ∃ t, outs[3]? = some (t, []) := by
  obtain ⟨enc, outs, enc', hnew, hrun, -, hall⟩ :=
    encoder_streams Faketcp.shardLimit_rs21 (show Faketcp.newRs21 2 1 = some Faketcp.rs21 from rfl)
      Faketcp.rs21_lawful.encodes (by decide) (by decide) (show 2 + 8 ≤ mtuLimit by decide)
      (show ∀ c ∈ ([⟨Slice.ofList (List.replicate 10 0 ++ [7]), 100, 1000⟩,
          ⟨Slice.ofList (List.replicate 10 0 ++ [8, 9]), 100, 1050⟩,
          ⟨Slice.ofList (List.replicate 10 0 ++ [5]), 100, 1100⟩,
          ⟨Slice.ofList (List.replicate 10 0 ++ [6]), 100, 1300⟩] : List Call),
        2 + 8 ≤ c.b.len ∧ c.b.len ≤ mtuLimit by decide) newSnmp
  obtain ⟨t, P, hout, -, hnum⟩ := hall 1 _ rfl
  obtain ⟨t', P', hout', -, hnum'⟩ := hall 3 _ rfl
  refine ⟨enc, outs, enc', hnew, hrun, ⟨t, P, hout, ?_⟩, t', ?_⟩
  · have hlen := hnum.length_eq
    rw [List.length_cons, List.length_map] at hlen
    exact Nat.succ.inj (hlen.trans (by decide +kernel))
  · have hlen := hnum'.length_eq
    rw [List.length_cons, List.length_map] at hlen
    have hnil : P' = [] :=
      List.eq_nil_of_length_eq_zero (Nat.succ.inj (hlen.trans (by decide +kernel)))
    rw [hout', hnil]

end Fecv2
