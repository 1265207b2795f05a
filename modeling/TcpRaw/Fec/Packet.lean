import TcpRaw.Lib.Slice

/-!
# FEC packets (`faketcp/fec.go`)

A packet on the wire is `seqid` (4 bytes), `flag` (2 bytes) and the shard; the first two bytes of a
data shard are its size (`plen`), itself included. `decodeFecPacket` copies the shard into a buffer
of the pool `xmitBuf`, whose buffers hold `mtuLimit` bytes of whatever was last in them.

Sequence ids are compared through `itimediff`, the signed 32-bit difference: `itimediff_pos` and
`itimediff_nonneg` say when it orders two ids, `inBlock_iff` that the two tests of the shard
assembly (`0 ≤ itimediff s shardBegin` and not `0 < itimediff s shardEnd`) hold exactly for the ids
at an offset below `shardSize` from `shardBegin`, whatever the ids are.
-/

namespace Faketcp

open GoRt

def fecHeaderSize : Nat := 6

/-- The header, plus 2 bytes of data size. -/
def fecHeaderSizePlus2 : Nat := fecHeaderSize + 2

def typeData : UInt16 := 0xf1

def typeFEC : UInt16 := 0xf2

def mtuLimit : Nat := 2 ^ 11

/-- What `xmitBuf.Get` returns: `mtuLimit` bytes of any contents. -/
structure PoolBuf where
  arr : Bytes
  size : arr.length = mtuLimit

/-- The buffer of the pool's `New`. -/
def PoolBuf.new : PoolBuf := ⟨List.replicate mtuLimit 0, List.length_replicate⟩

/-- A decoded FEC packet. -/
structure FecPacket where
  seqid : UInt32
  flag : UInt16
  data : Slice UInt8
  deriving DecidableEq, Repr

/-- `DecodeFecPacket`, with `buf` the buffer that the pool gives. -/
def decodeFecPacket (data : Bytes) (buf : PoolBuf) : Go FecPacket := do
  let seqid ← leUint32 data
  let flag ← sliceFrom data 4 >>= leUint16
  -- allocate memory & copy
  let s ← (Slice.ofList buf.arr).upto (data.length - 6)
  let shard ← sliceFrom data 6
  let s ← s.copyRange 0 s.len shard
  pure { seqid, flag, data := s }

/-- `_itimediff` -/
def itimediff (later earlier : UInt32) : Int32 := (later - earlier).toInt32

/-! ## Decoding a packet -/

/-- **`decodeFecPacket` on a packet of legal length**: the header's fields and the shard, in a
buffer of capacity `mtuLimit`. -/
theorem decodeFecPacket_ok {seqid : UInt32} {flag : UInt16} {shard : Bytes} (buf : PoolBuf)
    (h : shard.length ≤ mtuLimit) :
    ∃ pkt, decodeFecPacket (leBytes32 seqid ++ leBytes16 flag ++ shard) buf = .ok pkt ∧
      pkt.seqid = seqid ∧ pkt.flag = flag ∧ pkt.data.data = shard ∧ pkt.data.cap = mtuLimit := by
  have hlen : (leBytes32 seqid ++ leBytes16 flag ++ shard).length = 6 + shard.length := by
    simp [Nat.add_comm]
  have h4 : (leBytes32 seqid ++ leBytes16 flag ++ shard).drop 4 = leBytes16 flag ++ shard := by
    rw [List.append_assoc, List.drop_left' (length_leBytes32 _)]
  have h6 : (leBytes32 seqid ++ leBytes16 flag ++ shard).drop 6 = shard :=
    List.drop_left' (by simp)
  have hcap : (Slice.ofList buf.arr).cap = mtuLimit := buf.size
  obtain ⟨t, ht, htd, htc, -⟩ :=
    Slice.data_fill (show shard.length ≤ (Slice.ofList buf.arr).cap by rw [hcap]; exact h)
  rw [Slice.upto_ok (by rw [hcap]; exact h), ok_bind] at ht
  refine ⟨⟨seqid, flag, t⟩, ?_, rfl, rfl, htd, htc.trans hcap⟩
  unfold decodeFecPacket
  rw [List.append_assoc, leUint32_append, ← List.append_assoc, ok_bind,
    sliceFrom_ok (by rw [hlen]; omega), ok_bind, h4, leUint16_append, ok_bind, hlen,
    Nat.add_sub_cancel_left, Slice.upto_ok (by rw [hcap]; exact h), ok_bind,
    sliceFrom_ok (by rw [hlen]; omega), h6, ok_bind]
  simp only [ht, ok_bind, pure_eq_ok]

theorem decodeFecPacket_returns {data : Bytes} {buf : PoolBuf} :
    Returns (decodeFecPacket data buf) ↔ 6 ≤ data.length ∧ data.length ≤ mtuLimit + 6 := by
  have hcap : (Slice.ofList buf.arr).cap = mtuLimit := buf.size
  constructor
  · intro h
    unfold decodeFecPacket at h
    obtain ⟨_, -, h⟩ := returns_bind.1 h
    obtain ⟨_, hflag, h⟩ := returns_bind.1 h
    obtain ⟨rest, hrest, hflag⟩ := bind_ok hflag
    obtain ⟨s, hs, -⟩ := returns_bind.1 h
    have h6 : 2 ≤ rest.length := leUint16_returns.1 ⟨_, hflag⟩
    unfold sliceFrom at hrest
    unfold Slice.upto at hs
    split at hrest
    · simp only [Except.ok.injEq] at hrest
      split at hs
      · rename_i hs'
        change data.length - 6 ≤ (Slice.ofList buf.arr).cap at hs'
        rw [← hrest, List.length_drop] at h6
        omega
      · cases hs
    · cases hrest
  · rintro ⟨h6, hmax⟩
    obtain ⟨seqid, hseqid⟩ := leUint32_returns.2 (show 4 ≤ data.length by omega)
    obtain ⟨flag, hflag⟩ := leUint16_returns.2 (show 2 ≤ (data.drop 4).length by
      rw [List.length_drop]; omega)
    obtain ⟨t, ht, -⟩ := Slice.copyRange_ok
      (s := ⟨buf.arr, data.length - 6, by rw [buf.size]; omega⟩) (i := 0) (j := data.length - 6)
      (Nat.zero_le _) (by show _ ≤ buf.arr.length; rw [buf.size]; omega) (data.drop 6)
    refine ⟨⟨seqid, flag, t⟩, ?_⟩
    unfold decodeFecPacket
    rw [hseqid, ok_bind, sliceFrom_ok (by omega), ok_bind, hflag, ok_bind,
      Slice.upto_ok (by omega), ok_bind, sliceFrom_ok h6, ok_bind]
    simp only [Slice.ofList, ht, ok_bind, pure_eq_ok]

/-! ## Comparing sequence ids -/

theorem toInt_itimediff (a b : UInt32) :
    (itimediff a b).toInt =
      if (a - b).toNat < 2 ^ 31 then ((a - b).toNat : Int) else (a - b).toNat - 2 ^ 32 := by
  unfold itimediff
  rw [← Int32.toInt_toBitVec, UInt32.toBitVec_toInt32, BitVec.toInt_eq_toNat_cond]
  simp only [UInt32.toNat_toBitVec]
  split <;> split <;> simp_all <;> omega

theorem itimediff_pos {a b : UInt32} :
    0 < itimediff a b ↔ 0 < (a - b).toNat ∧ (a - b).toNat < 2 ^ 31 := by
  have := (a - b).toNat_lt
  rw [Int32.lt_iff_toInt_lt, toInt_itimediff]
  simp only [Int32.toInt_zero]
  split <;> omega

theorem itimediff_nonneg {a b : UInt32} : 0 ≤ itimediff a b ↔ (a - b).toNat < 2 ^ 31 := by
  have := (a - b).toNat_lt
  rw [Int32.le_iff_toInt_le, toInt_itimediff]
  simp only [Int32.toInt_zero]
  split <;> omega

/-- First sequence id of the block of `seqid`. -/
def shardBegin (n : UInt32) (seqid : UInt32) : UInt32 := seqid - seqid % n

/-- Last sequence id of the block of `seqid`. -/
def shardEnd (n : UInt32) (seqid : UInt32) : UInt32 := shardBegin n seqid + n - 1

/-- `s` is past the block of `seqid`, where the shard assembly ends. -/
def PastBlock (n seqid s : UInt32) : Prop := 0 < itimediff s (shardEnd n seqid)

/-- `s` passes the shard assembly's tests for the block of `seqid`. -/
def InBlock (n seqid s : UInt32) : Prop :=
  ¬ PastBlock n seqid s ∧ 0 ≤ itimediff s (shardBegin n seqid)

instance (n seqid s : UInt32) : Decidable (PastBlock n seqid s) :=
  inferInstanceAs (Decidable (0 < itimediff s (shardEnd n seqid)))

instance (n seqid s : UInt32) : Decidable (InBlock n seqid s) :=
  inferInstanceAs (Decidable (¬ PastBlock n seqid s ∧ 0 ≤ itimediff s (shardBegin n seqid)))

/-- **The shard assembly's tests**: an offset below the block size from the block's first id. -/
theorem inBlock_iff {n seqid s : UInt32} (h0 : 0 < n.toNat) (hn : n.toNat ≤ 2 ^ 31) :
    InBlock n seqid s ↔ (s - shardBegin n seqid).toNat < n.toNat := by
  unfold InBlock PastBlock shardEnd
  generalize shardBegin n seqid = b
  rw [itimediff_pos, itimediff_nonneg]
  have hs := s.toNat_lt
  have hb := b.toNat_lt
  simp only [UInt32.toNat_sub, UInt32.toNat_add, UInt32.toNat_one]
  omega

end Faketcp
