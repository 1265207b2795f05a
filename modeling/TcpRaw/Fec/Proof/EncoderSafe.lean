import TcpRaw.Fec.Proof.Encode
import TcpRaw.Fec.ReedSolomon21
import TcpRaw.Fec.Write
import TcpRaw.Lib.Trans

/-!
# Which payloads the encoder takes

`FecEncoder.Ready` is what every encoder keeps, for any block size that the codec library accepts
and with any codec: `paws` is not zero, the shard cache has a slice for the next data shard, its
slices have the capacity `mtuLimit`, and the sizes of the block under way are in range. From there a
call of `encode` returns exactly for the payloads that a cache slice has room for (`encode_ready`,
`encode_long`), and the packet's size field is their length plus 2.
-/

namespace Faketcp

open GoRt Erasure

/-- The buffer that `EncodeData` makes of a payload. -/
def fecBuf (b : Bytes) : Slice UInt8 := Slice.ofList (List.replicate fecHeaderSizePlus2 0 ++ b)

/-- What an encoder keeps from its constructor on. -/
structure FecEncoder.Ready (enc : FecEncoder) : Prop where
  paws : enc.paws ≠ 0
  headerOffset : enc.headerOffset = 0
  payloadOffset : enc.payloadOffset = 6
  count : enc.shardCount < enc.dataShards
  room : enc.dataShards ≤ enc.shardCache.length
  cap : ∀ s ∈ enc.shardCache, s.cap = mtuLimit
  maxSize : enc.maxSize ≤ mtuLimit
  data_len : ∀ s ∈ enc.shardCache.take enc.shardCount, s.len ≤ enc.maxSize
  parity_len : ∀ s ∈ enc.shardCache.drop enc.dataShards, 6 ≤ s.len

/-! ## The stages of a full block, for any codec -/

theorem bzeroTails_returns (zeros : Bytes) {m : Nat} :
    ∀ (shards : List (Slice UInt8)), (∀ s ∈ shards, s.len ≤ m ∧ m ≤ s.cap) →
      ∃ out, bzeroTails zeros m shards = .ok out ∧
        out.map Slice.cap = shards.map Slice.cap
  | [], _ => ⟨[], rfl, rfl⟩
  | s :: shards, h => by
    obtain ⟨hl, hc⟩ := h s List.mem_cons_self
    obtain ⟨out, ho, hcaps⟩ := bzeroTails_returns zeros shards fun t ht =>
      h t (List.mem_cons_of_mem _ ht)
    obtain ⟨t, ht, -, -, htc⟩ := Slice.copyRange_ok hl hc zeros
    refine ⟨t :: out, ?_, by simp [htc, hcaps]⟩
    rw [bzeroTails, ht, ok_bind, ho]
    rfl

theorem writeParity_returns {m : Nat} (h6 : 6 ≤ m) :
    ∀ (shards : List (Slice UInt8)) (parity : List Bytes), (∀ s ∈ shards, m ≤ s.cap) →
      ∃ out, writeParity 6 m shards parity = .ok out ∧
        out.map (fun s => (s.cap, s.len)) = shards.map fun s => (s.cap, s.len)
  | [], _, _ => ⟨[], rfl, rfl⟩
  | s :: shards, parity, h => by
    obtain ⟨out, ho, hcl⟩ := writeParity_returns h6 shards parity.tail fun t ht =>
      h t (List.mem_cons_of_mem _ ht)
    obtain ⟨t, ht, -, htl, htc⟩ := Slice.copyRange_ok h6 (h s List.mem_cons_self) (parity.headD [])
    refine ⟨t :: out, ?_, by simp [htl, htc, hcl]⟩
    rw [writeParity, ht, ok_bind, ho]
    rfl

theorem markParity_returns :
    ∀ (shards : List (Slice UInt8)) (enc : FecEncoder), enc.headerOffset = 0 →
      (∀ s ∈ shards, enc.maxSize ≤ s.cap ∧ 6 ≤ s.len) →
      ∃ out next, enc.markParity shards = .ok (out, { enc with next }) ∧
        out.map (fun s => (s.cap, s.len)) = shards.map fun s => (s.cap, enc.maxSize)
  | [], enc, _, _ => ⟨[], enc.next, rfl, rfl⟩
  | s :: shards, enc, ho, h => by
    obtain ⟨hc, hl⟩ := h s List.mem_cons_self
    obtain ⟨t, ht, -, htc, -⟩ := putHeader_ok hl enc.next typeFEC
    have hmark : enc.markFEC s = .ok (t, { enc with next := (enc.next + 1) % enc.paws }) := by
      rw [FecEncoder.markFEC, ho, ht]
      rfl
    obtain ⟨u, hu, huc, hul⟩ : ∃ u, t.upto enc.maxSize = .ok u ∧ u.cap = t.cap ∧
        u.len = enc.maxSize := ⟨_, Slice.upto_ok (by omega), rfl, rfl⟩
    obtain ⟨out, next, hout, hcl⟩ :=
      markParity_returns shards { enc with next := (enc.next + 1) % enc.paws } ho fun t ht =>
        h t (List.mem_cons_of_mem _ ht)
    refine ⟨u :: out, next, ?_, by simp [huc, htc, hul, hcl]⟩
    rw [FecEncoder.markParity, hmark, ok_bind]
    dsimp only
    rw [hu, ok_bind, hout]
    rfl

/-- The data shards of a block are all there. -/
structure FecEncoder.Full (enc : FecEncoder) : Prop where
  paws : enc.paws ≠ 0
  headerOffset : enc.headerOffset = 0
  payloadOffset : enc.payloadOffset = 6
  pos : 0 < enc.dataShards
  room : enc.dataShards ≤ enc.shardCache.length
  cap : ∀ s ∈ enc.shardCache, s.cap = mtuLimit
  header : 6 ≤ enc.maxSize
  maxSize : enc.maxSize ≤ mtuLimit
  data_len : ∀ s ∈ enc.shardCache.take enc.dataShards, s.len ≤ enc.maxSize
  parity_len : ∀ s ∈ enc.shardCache.drop enc.dataShards, 6 ≤ s.len

theorem FecEncoder.Full.ready {enc : FecEncoder} (h : enc.Full) {shards ps : List (Slice UInt8)}
    (next : UInt32)
    (hshards : shards.map Slice.cap = (enc.shardCache.take enc.dataShards).map Slice.cap)
    (hcap : ∀ s ∈ ps, s.cap = mtuLimit) (hlen : ∀ s ∈ ps, 6 ≤ s.len) :
    FecEncoder.Ready
      { enc with next, shardCache := shards ++ ps, shardCount := 0, maxSize := 0 } := by
  have hl : shards.length = enc.dataShards := by
    have := congrArg List.length hshards
    rw [List.length_map, List.length_map, List.length_take] at this
    have := h.room
    omega
  refine ⟨h.paws, h.headerOffset, h.payloadOffset, h.pos, ?_, fun s hs => ?_, Nat.zero_le _,
    fun s hs => ?_, fun s hs => ?_⟩
  · show enc.dataShards ≤ (shards ++ ps).length
    rw [List.length_append]
    omega
  · rcases List.mem_append.1 hs with hs | hs
    · obtain ⟨t, ht, htc⟩ := exists_of_map_eq hshards hs
      rw [← htc]
      exact h.cap t (List.mem_of_mem_take ht)
    · exact hcap s hs
  · rw [List.take_zero] at hs
    exact absurd hs List.not_mem_nil
  · change s ∈ (shards ++ ps).drop enc.dataShards at hs
    rw [List.drop_left' hl] at hs
    exact hlen s hs

/-- **The end of a block**, whatever the codec answers. -/
theorem encodeBlock_returns {enc : FecEncoder} (h : enc.Full) :
    ∃ ps enc', enc.encodeBlock = .ok (ps, enc') ∧
      FecEncoder.Ready { enc' with shardCount := 0, maxSize := 0 } := by
  have hmax := h.maxSize
  have hparity : ∀ s ∈ enc.shardCache.drop enc.dataShards, s.cap = mtuLimit ∧ 6 ≤ s.len :=
    fun s hs => ⟨h.cap s (List.mem_of_mem_drop hs), h.parity_len s hs⟩
  obtain ⟨shards, hbz, hsc⟩ := bzeroTails_returns enc.zeros (m := enc.maxSize)
    (enc.shardCache.take enc.dataShards) fun s hs => by
      rw [h.cap s (List.mem_of_mem_take hs)]
      exact ⟨h.data_len s hs, hmax⟩
  obtain ⟨cache, hst, -⟩ := stripHeaders_ok h.header
    (shards ++ enc.shardCache.drop enc.dataShards) fun s hs => by
      rcases List.mem_append.1 hs with hs | hs
      · obtain ⟨t, ht, htc⟩ := exists_of_map_eq hsc hs
        rw [← htc, h.cap t (List.mem_of_mem_take ht)]
        exact hmax
      · rw [(hparity s hs).1]
        exact hmax
  rw [← h.payloadOffset] at hst
  unfold FecEncoder.encodeBlock
  rw [hbz, ok_bind, hst, ok_bind]
  cases enc.codec.encode ((cache.take enc.dataShards).map Slice.data) with
  | none =>
    exact ⟨_, _, rfl, h.ready enc.next hsc (fun s hs => (hparity s hs).1)
      fun s hs => (hparity s hs).2⟩
  | some parity =>
    dsimp only
    obtain ⟨written, hw, hwcl⟩ := writeParity_returns h.header (enc.shardCache.drop enc.dataShards)
      parity fun s hs => by
        rw [(hparity s hs).1]
        exact hmax
    have hwritten : ∀ s ∈ written, s.cap = mtuLimit ∧ 6 ≤ s.len := fun s hs => by
      obtain ⟨t, ht, he⟩ := exists_of_map_eq hwcl hs
      rw [Prod.mk.injEq] at he
      rw [← he.1, ← he.2]
      exact hparity t ht
    obtain ⟨ps, next, hm, hcl⟩ := markParity_returns written enc h.headerOffset fun s hs => by
      rw [(hwritten s hs).1]
      exact ⟨hmax, (hwritten s hs).2⟩
    have hps : ∀ s ∈ ps, s.cap = mtuLimit ∧ 6 ≤ s.len := fun s hs => by
      obtain ⟨t, ht, he⟩ := exists_of_map_eq hcl hs
      rw [Prod.mk.injEq] at he
      rw [← he.1, ← he.2]
      exact ⟨(hwritten t ht).1, h.header⟩
    rw [← h.payloadOffset] at hw
    rw [hw, ok_bind, hm, ok_bind]
    exact ⟨ps, _, rfl, h.ready next hsc (fun s hs => (hps s hs).1) fun s hs => (hps s hs).2⟩

/-! ## A call -/

section
variable {enc : FecEncoder} {b : Bytes}

theorem cacheShard_ready (h : enc.Ready) (hb : b.length ≤ maxPayload) {t : Slice UInt8}
    (ht : t.data = packet enc.next typeData (sized b)) :
    ∃ enc', FecEncoder.cacheShard { enc with next := enc.next + 1 } t = .ok enc' ∧
      enc'.dataShards = enc.dataShards ∧ enc'.shardCount = enc.shardCount + 1 ∧
      (enc.shardCount + 1 < enc.dataShards → enc'.Ready) ∧
      (enc.shardCount + 1 = enc.dataShards → enc'.Full) := by
  have hlen := length_stamped ht
  have hfit : t.len ≤ mtuLimit := by
    unfold maxPayload fecHeaderSizePlus2 fecHeaderSize mtuLimit at *
    omega
  have hk : enc.shardCount < enc.shardCache.length := Nat.lt_of_lt_of_le h.count h.room
  obtain ⟨s, -, hsl, hcaps, hs⟩ :=
    @cacheShard_fits { enc with next := enc.next + 1 } hk h.cap t hfit
  have hmax : (if t.len > enc.maxSize then t.len else enc.maxSize) ≤ mtuLimit := by
    have := h.maxSize
    split <;> omega
  -- the cached shards are as long as before, and the new one is as long as the packet
  have hdata : ∀ s' ∈ (enc.shardCache.set enc.shardCount s).take (enc.shardCount + 1),
      s'.len ≤ if t.len > enc.maxSize then t.len else enc.maxSize := fun s' hs' => by
    rw [List.take_succ_eq_append_getElem (by simpa using hk), List.take_set_of_le (Nat.le_refl _),
      List.getElem_set_self] at hs'
    rcases List.mem_append.1 hs' with hs' | hs'
    · have := h.data_len s' hs'
      split <;> omega
    · rw [List.mem_singleton.1 hs', hsl]
      split <;> omega
  have hparity : ∀ s' ∈ (enc.shardCache.set enc.shardCount s).drop enc.dataShards, 6 ≤ s'.len :=
    fun s' hs' => by
      rw [List.drop_set_of_lt h.count] at hs'
      exact h.parity_len s' hs'
  refine ⟨_, hs, rfl, rfl, fun hlt => ?_, fun hfull => ?_⟩
  · exact ⟨h.paws, h.headerOffset, h.payloadOffset, hlt, by simpa using h.room, hcaps, hmax, hdata,
      hparity⟩
  · refine ⟨h.paws, h.headerOffset, h.payloadOffset, Nat.lt_of_le_of_lt (Nat.zero_le _) h.count,
      by simpa using h.room, hcaps, ?_, hmax, ?_, hparity⟩
    · show 6 ≤ if t.len > enc.maxSize then t.len else enc.maxSize
      split <;> omega
    · rw [← hfull]
      exact hdata

/-- **A payload that fits**: `encode` returns its packet, and the encoder is ready for the next. -/
theorem encode_ready (h : enc.Ready) (hb : b.length ≤ maxPayload) :
    ∃ s ps enc', enc.encode (fecBuf b) = .ok (s, ps, enc') ∧
      s.data = packet enc.next typeData (sized b) ∧ enc'.Ready := by
  obtain ⟨s, t, hs, ht, htd⟩ := stamp_ok h.headerOffset h.payloadOffset b
  obtain ⟨enc₁, h₁, hd, hc, hready, hfull⟩ := cacheShard_ready h hb htd
  unfold FecEncoder.encode fecBuf
  rw [hs, ok_bind]
  dsimp only
  rw [ht, ok_bind, h₁, ok_bind, hc, hd]
  by_cases hlast : enc.shardCount + 1 = enc.dataShards
  · obtain ⟨ps, enc₂, he, hr⟩ := encodeBlock_returns (hfull hlast)
    rw [if_pos hlast, he]
    exact ⟨t, ps, _, rfl, htd, hr⟩
  · have hlt := h.count
    rw [if_neg hlast]
    exact ⟨t, [], enc₁, rfl, htd, hready (by omega)⟩

/-- **A payload that does not fit** is a panic: the cache slice has no room for its packet. -/
theorem encode_long (h : enc.Ready) (hb : maxPayload < b.length) :
    enc.encode (fecBuf b) = .error .sliceBounds := by
  obtain ⟨s, t, hs, ht, htd⟩ := stamp_ok h.headerOffset h.payloadOffset b
  have hlen := length_stamped htd
  have hk : enc.shardCount < enc.shardCache.length := Nat.lt_of_lt_of_le h.count h.room
  have hcap : (enc.shardCache[enc.shardCount]).arr.length = mtuLimit :=
    h.cap _ (List.getElem_mem hk)
  have hno : ¬ t.len ≤ (enc.shardCache[enc.shardCount]).arr.length := by
    rw [hcap]
    unfold maxPayload fecHeaderSizePlus2 fecHeaderSize mtuLimit at *
    omega
  unfold FecEncoder.encode fecBuf
  rw [hs, ok_bind]
  dsimp only
  rw [ht, ok_bind]
  unfold FecEncoder.cacheShard
  dsimp only
  rw [index_ok hk, ok_bind, Slice.upto, dif_neg hno]
  rfl

end

/-! ## Encoders in use -/

/-- The states of an encoder: `newFECEncoder`, then calls of `encode` that returned. -/
def FecEncoder.Reachable (rs : Nat → Nat → Option (Codec UInt8)) (d p : Nat) : FecEncoder → Prop :=
  Trans.Reach (fun enc => newFECEncoder rs d p 0 = some enc) fun enc b enc' =>
    ∃ s ps, enc.encode (fecBuf b) = .ok (s, ps, enc')

/-- Sequence ids are reduced by a number that is not zero, for all block sizes that the library
accepts. -/
theorem paws_ne_zero {n : Nat} (h0 : 0 < n) (hn : n ≤ 65536) :
    (0xffffffff / UInt32.ofNat n - 1) * UInt32.ofNat n ≠ 0 := by
  have hdiv : 2 ≤ 0xffffffff / n := by
    rw [Nat.le_div_iff_mul_le h0]
    omega
  intro hzero
  have hnat := toNat_paws h0 hn
  rw [hzero] at hnat
  exact Nat.ne_of_lt (Nat.mul_pos (by omega) h0) hnat

theorem newFECEncoder_ready {rs : Nat → Nat → Option (Codec UInt8)} (hlib : ShardLimit rs)
    {d p : Nat} {enc : FecEncoder} (h : newFECEncoder rs d p 0 = some enc) : enc.Ready := by
  unfold newFECEncoder at h
  split at h
  · cases h
  rename_i hpos
  obtain ⟨codec, hrs, rfl⟩ := Option.map_eq_some_iff.1 h
  have hmax := hlib d p codec hrs
  have hslice : ∀ s ∈ List.replicate (d + p) (Slice.ofList (List.replicate mtuLimit (0 : UInt8))),
      s.cap = mtuLimit ∧ s.len = mtuLimit := fun s hs => by
    rw [List.eq_of_mem_replicate hs]
    exact ⟨List.length_replicate, List.length_replicate⟩
  refine ⟨paws_ne_zero (by omega) hmax, rfl, rfl, ?_, ?_, fun s hs => (hslice s hs).1,
    Nat.zero_le _, fun s hs => ?_, fun s hs => ?_⟩
  · show 0 < d
    omega
  · show d ≤ (List.replicate (d + p) _).length
    rw [List.length_replicate]
    exact Nat.le_add_right d p
  · rw [List.take_zero] at hs
    exact absurd hs List.not_mem_nil
  · rw [(hslice s (List.mem_of_mem_drop hs)).2]
    decide

theorem newFec_encoder {rs : Nat → Nat → Option (Codec UInt8)} {d p : Nat} {fec : Fec}
    (h : newFec rs d p 0 = some fec) : newFECEncoder rs d p 0 = some fec.encoder := by
  change (newFECEncoder rs d p 0).bind _ = some fec at h
  obtain ⟨enc, henc, h⟩ := Option.bind_eq_some_iff.1 h
  change (newFECDecoder rs (3 * (d + p)) d p).bind _ = some fec at h
  obtain ⟨dec, -, h⟩ := Option.bind_eq_some_iff.1 h
  cases h
  exact henc

theorem FecEncoder.Reachable.ready {rs : Nat → Nat → Option (Codec UInt8)} (hlib : ShardLimit rs)
    {d p : Nat} {enc : FecEncoder} (h : FecEncoder.Reachable rs d p enc) : enc.Ready := by
  refine Trans.Reach.invariant ?_ ?_ h
  · intro enc hnew
    exact newFECEncoder_ready hlib hnew
  rintro enc b enc' hr ⟨s, ps, he⟩
  rcases Nat.lt_or_ge maxPayload b.length with hlong | hb
  · rw [encode_long hr hlong] at he
    cases he
  · obtain ⟨s', ps', enc'', he', -, hr'⟩ := encode_ready hr hb
    rw [he] at he'
    cases he'
    exact hr'

end Faketcp
