import TcpRaw.Fec.Packet
import TcpRaw.Lib.Erasure

/-!
# The packet stream of an encoder

What an encoder is for, said without its caches: the payloads are cut into blocks of `d`; packet
`k` of the stream carries shard `k % n` of block `k / n`, with `n = d + p`. The first `d` shards of
a block are its payloads, each after its size (`sized`); the others are the parity of these,
padded to the longest (`paddedData`), and exist once the block is full (`blockShard`). Packet `k`
has sequence id `k` modulo `paws`, a multiple of `n`, so a sequence id determines the shard's
position in its block also after the wrap.

`streamPacket_mono`: what is in the stream does not change when more payloads follow.
-/

namespace Faketcp

open GoRt Erasure

/-- `b` padded with zeros to `m` bytes. -/
def padTo (m : Nat) (b : Bytes) : Bytes := b ++ List.replicate (m - b.length) 0

/-- The data shard of a payload: its size, the size's two bytes included, and the payload. -/
def sized (b : Bytes) : Bytes := leBytes16 (UInt16.ofNat (b.length + 2)) ++ b

/-- The length of the longest data shard of a block of payloads. -/
def blockLen : List Bytes → Nat
  | [] => 0
  | b :: blk => max (b.length + 2) (blockLen blk)

/-- The data shards of a block, padded to the longest. -/
def paddedData (blk : List Bytes) : List Bytes := blk.map fun b => padTo (blockLen blk) (sized b)

/-- The payloads of block `B`, as many as there are. -/
def blockOf (d B : Nat) (ps : List Bytes) : List Bytes := (ps.drop (d * B)).take d

/-- A packet on the wire. -/
def packet (seqid : UInt32) (flag : UInt16) (shard : Bytes) : Bytes :=
  leBytes32 seqid ++ leBytes16 flag ++ shard

/-- The sequence id in a packet on the wire. -/
def wireSeqid (x : Bytes) : Nat :=
  match leUint32 x with
  | .ok seqid => seqid.toNat
  | .error _ => 0

/-- The flag of a packet at position `j` of its block. -/
def flagOf (d j : Nat) : UInt16 := if j < d then typeData else typeFEC

/-- The sequence ids of blocks of `n` shards wrap here. -/
def pawsOf (n : Nat) : Nat := (0xffffffff / n - 1) * n

/-- Shard `j` of a block, as it is sent: a data shard is not padded. -/
def blockShard (codec : Codec UInt8) (d : Nat) (blk : List Bytes) (j : Nat) : Option Bytes :=
  if j < d then blk[j]?.map sized
  else if blk.length = d then (codec.encode (paddedData blk)).bind fun parity => parity[j - d]?
  else none

/-- Packet `k` of the stream of `ps`. -/
def streamPacket (codec : Codec UInt8) (d p : Nat) (ps : List Bytes) (k : Nat) : Option Bytes :=
  (blockShard codec d (blockOf d (k / (d + p)) ps) (k % (d + p))).map
    (packet (UInt32.ofNat (k % pawsOf (d + p))) (flagOf d (k % (d + p))))

/-- The payload that packet `k` of the stream carries, `none` for a parity packet. -/
def streamPayload (d p : Nat) (ps : List Bytes) (k : Nat) : Option Bytes :=
  if k % (d + p) < d then (blockOf d (k / (d + p)) ps)[k % (d + p)]? else none

/-- The number of packets of the stream of `m` payloads. -/
def streamLength (d p m : Nat) : Nat := m + m / d * p

/-! ## Padding -/

theorem length_padTo {m : Nat} {b : Bytes} (h : b.length ≤ m) : (padTo m b).length = m := by
  rw [padTo, List.length_append, List.length_replicate]
  omega

/-- The first bytes do not depend on how far a shard is padded. -/
theorem take_padTo_le {m M : Nat} (h : m ≤ M) (b : Bytes) :
    (padTo M b).take m = padTo m (b.take m) := by
  rw [padTo, padTo, List.take_append, List.take_replicate, List.length_take]
  congr 2
  omega

theorem padTo_length (b : Bytes) : padTo b.length b = b := by simp [padTo]

@[simp] theorem length_sized (b : Bytes) : (sized b).length = b.length + 2 := by
  simp [sized, Nat.add_comm]

theorem length_le_blockLen : ∀ {blk : List Bytes} {b : Bytes}, b ∈ blk →
    b.length + 2 ≤ blockLen blk
  | _ :: _, b, h => by
    rcases List.mem_cons.1 h with rfl | h
    · exact Nat.le_max_left _ _
    · exact Nat.le_trans (length_le_blockLen h) (Nat.le_max_right _ _)

theorem blockLen_le {m : Nat} : ∀ {blk : List Bytes}, (∀ b ∈ blk, b.length + 2 ≤ m) →
    blockLen blk ≤ m
  | [], _ => Nat.zero_le _
  | b :: blk, h =>
    Nat.max_le.2 ⟨h b (by simp), blockLen_le fun b' hb' => h b' (by simp [hb'])⟩

theorem blockLen_append : ∀ (blk : List Bytes) (b : Bytes),
    blockLen (blk ++ [b]) = max (blockLen blk) (b.length + 2)
  | [], b => by simp [blockLen]
  | b' :: blk, b => by
    rw [List.cons_append, blockLen, blockLen_append blk b, blockLen]
    omega

theorem length_paddedData (blk : List Bytes) : (paddedData blk).length = blk.length := by
  simp [paddedData]

theorem size_paddedData {blk : List Bytes} {s : Bytes} (h : s ∈ paddedData blk) :
    s.length = blockLen blk := by
  obtain ⟨b, hb, rfl⟩ := List.mem_map.1 h
  exact length_padTo (by rw [length_sized]; exact length_le_blockLen hb)

/-- The two size bytes in front of a data shard. -/
theorem leUint16_sized (b rest : Bytes) :
    leUint16 (sized b ++ rest) = .ok (UInt16.ofNat (b.length + 2)) := by
  rw [sized, List.append_assoc, leUint16_append]

theorem sized_payload (b rest : Bytes) :
    ((sized b ++ rest).take (b.length + 2)).drop 2 = b := by
  rw [List.take_left' (length_sized b), sized, List.drop_left' (length_leBytes16 _)]

theorem wireSeqid_packet (seqid : UInt32) (flag : UInt16) (shard : Bytes) :
    wireSeqid (packet seqid flag shard) = seqid.toNat := by
  rw [wireSeqid, packet, List.append_assoc, leUint32_append]

/-! ## The stream -/

section
variable {codec : Codec UInt8} {d p : Nat}

theorem length_blockOf_le (d B : Nat) (ps : List Bytes) : (blockOf d B ps).length ≤ d := by
  rw [blockOf, List.length_take]
  exact Nat.min_le_left _ _

theorem mem_blockOf {B : Nat} {ps : List Bytes} {b : Bytes} (h : b ∈ blockOf d B ps) : b ∈ ps :=
  List.mem_of_mem_drop (List.mem_of_mem_take h)

theorem getElem?_blockOf {B j : Nat} (hj : j < d) (ps : List Bytes) :
    (blockOf d B ps)[j]? = ps[d * B + j]? := by
  rw [blockOf, List.getElem?_take, if_pos hj, List.getElem?_drop]

/-- A block keeps its payloads when more follow. -/
theorem blockOf_append (B : Nat) (ps qs : List Bytes) :
    blockOf d B (ps ++ qs) = blockOf d B ps ++
      (qs.drop (d * B - ps.length)).take (d - (blockOf d B ps).length) := by
  unfold blockOf
  rw [List.drop_append, List.take_append, List.length_take]
  congr 2
  omega

theorem blockShard_append {blk qs : List Bytes} {j : Nat} {s : Bytes}
    (hlen : (blk ++ qs).length ≤ d) (h : blockShard codec d blk j = some s) :
    blockShard codec d (blk ++ qs) j = some s := by
  unfold blockShard at h ⊢
  split at h
  · rename_i hj
    obtain ⟨b, hb, rfl⟩ := Option.map_eq_some_iff.1 h
    rw [if_pos hj, List.getElem?_append_left (List.getElem?_eq_some_iff.1 hb).1, hb]
    rfl
  · rename_i hj
    split at h
    · rename_i hd
      have : qs = [] := by
        rw [List.length_append] at hlen
        exact List.eq_nil_of_length_eq_zero (by omega)
      rw [if_neg hj, this, List.append_nil, if_pos hd, h]
    · cases h

theorem blockShard_mono {ps qs : List Bytes} {B j : Nat} {s : Bytes}
    (h : blockShard codec d (blockOf d B ps) j = some s) :
    blockShard codec d (blockOf d B (ps ++ qs)) j = some s := by
  have hle := length_blockOf_le d B (ps ++ qs)
  rw [blockOf_append] at hle ⊢
  exact blockShard_append hle h

/-- What is in the stream does not change when more payloads follow. -/
theorem streamPacket_mono {ps : List Bytes} (qs : List Bytes) {k : Nat} {x : Bytes}
    (h : streamPacket codec d p ps k = some x) : streamPacket codec d p (ps ++ qs) k = some x := by
  obtain ⟨s, hs, rfl⟩ := Option.map_eq_some_iff.1 h
  rw [streamPacket, blockShard_mono hs]
  rfl

theorem div_mod_of_eq {n B j k : Nat} (hk : k = B * n + j) (hj : j < n) :
    k / n = B ∧ k % n = j := by
  subst hk
  rw [Nat.mul_comm, Nat.mul_add_div (by omega), Nat.mul_add_mod, Nat.div_eq_of_lt hj,
    Nat.mod_eq_of_lt hj]
  exact ⟨rfl, rfl⟩

/-- A parity shard, or the last data shard, is there only in a full block. -/
theorem length_of_blockShard {blk : List Bytes} (hle : blk.length ≤ d) {j : Nat} {s : Bytes}
    (h : blockShard codec d blk j = some s) (hj : d ≤ j + 1) : blk.length = d := by
  unfold blockShard at h
  split at h
  · obtain ⟨b, hb, -⟩ := Option.map_eq_some_iff.1 h
    have := (List.getElem?_eq_some_iff.1 hb).1
    omega
  · split at h
    · assumption
    · cases h

theorem pawsOf_pos {n : Nat} (h0 : 0 < n) (hn : n ≤ 256) : 0 < pawsOf n := by
  unfold pawsOf
  have : 256 ≤ 0xffffffff / n := by rw [Nat.le_div_iff_mul_le h0]; omega
  exact Nat.mul_pos (by omega) h0

/-- `paws` is a multiple of the block size that leaves less than two blocks of 32-bit ids. -/
theorem pawsOf_bounds {n : Nat} (h0 : 0 < n) (hn : n ≤ 256) :
    pawsOf n + 2 * n > 0xffffffff ∧ pawsOf n + n ≤ 0xffffffff := by
  have hm := Nat.div_add_mod 0xffffffff n
  have hlt := Nat.mod_lt 0xffffffff h0
  have : 256 ≤ 0xffffffff / n := by rw [Nat.le_div_iff_mul_le h0]; omega
  unfold pawsOf
  rw [Nat.sub_mul, Nat.mul_comm]
  omega

/-- The encoder computes `paws` without overflow, for all block sizes that the library accepts. -/
theorem toNat_paws {n : Nat} (h0 : 0 < n) (hn : n ≤ 65536) :
    ((0xffffffff / UInt32.ofNat n - 1) * UInt32.ofNat n).toNat = pawsOf n := by
  have htn := UInt32.toNat_ofNat_of_lt' (Nat.lt_of_le_of_lt hn (by decide : 65536 < UInt32.size))
  have hdiv : 1 ≤ 0xffffffff / n := by
    rw [Nat.le_div_iff_mul_le h0]
    omega
  have hle : 0xffffffff / n * n ≤ 0xffffffff := Nat.div_mul_le_self _ _
  have hquot : (0xffffffff / UInt32.ofNat n).toNat = 0xffffffff / n := by
    rw [UInt32.toNat_div, htn]
    rfl
  rw [UInt32.toNat_mul, UInt32.toNat_sub_of_le _ _ (by
    rw [UInt32.le_iff_toNat_le, hquot, UInt32.toNat_one]; exact hdiv), hquot, htn, UInt32.toNat_one,
    pawsOf, Nat.mod_eq_of_lt (by rw [Nat.sub_mul]; omega)]

theorem mod_pawsOf_mod (k n : Nat) : k % pawsOf n % n = k % n :=
  Nat.mod_mod_of_dvd k (Nat.dvd_mul_left n _)

/-- Sequence ids wrap only after the last packet of a block. -/
theorem succ_mod_pawsOf {k n : Nat} (hn : n ≤ 256) (hk : k % n + 1 < n) :
    (k + 1) % pawsOf n = k % pawsOf n + 1 := by
  have hlt := Nat.mod_lt k (pawsOf_pos (by omega) hn)
  have hne : k % pawsOf n + 1 ≠ pawsOf n := by
    intro he
    have h1 : (k % pawsOf n + 1) % n = k % n + 1 := by
      rw [Nat.add_mod, mod_pawsOf_mod, Nat.mod_eq_of_lt (by omega : 1 < n), Nat.mod_eq_of_lt hk]
    rw [he, pawsOf, Nat.mul_mod_left] at h1
    omega
  rw [Nat.add_mod, Nat.mod_eq_of_lt (by omega : 1 < pawsOf n), Nat.mod_eq_of_lt (by omega)]

end

end Faketcp
