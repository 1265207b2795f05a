import TcpRaw.Fec.Proof.Order
import TcpRaw.Fec.Proof.Integrity

/-!
# Sequence ids where they wrap

`streamId n k` is the sequence id of packet `k` of a stream in blocks of `n`: ids count up to
`paws`, a multiple of `n` just below `2 ^ 32`, and start again. Two packets less than half the ids
apart are compared as their numbers are (`itimediff_streamId`), on both sides of the wrap, because
the ids left out there are at most two blocks. The first and last id of a block are those of its
first and last packet (`shardBegin_streamId`, `shardEnd_streamId`), because no block straddles the
wrap.

So the packets of a stretch of a stream are placed (`placed_stretch`), `position` reading a packet's
number off its id.
-/

namespace Faketcp

open GoRt

/-- The sequence id of packet `k` of a stream in blocks of `n`. -/
def streamId (n k : Nat) : UInt32 := UInt32.ofNat (k % pawsOf n)

section
variable {n : Nat} (h0 : 0 < n) (hn : n ≤ 256)
include h0 hn

theorem toNat_streamId (k : Nat) : (streamId n k).toNat = k % pawsOf n := by
  have := Nat.mod_lt k (pawsOf_pos h0 hn)
  have := (pawsOf_bounds h0 hn).2
  rw [streamId, UInt32.toNat_ofNat', Nat.mod_eq_of_lt (by omega)]

/-! ## The order -/

/-- `t` ids on: either the ids have not wrapped, or those that are left out are passed too. -/
theorem toNat_streamId_add (k : Nat) {t : Nat} (ht : t + 512 < 2 ^ 31) :
    (streamId n (k + t)).toNat = (streamId n k).toNat + t ∨
      (streamId n (k + t)).toNat + pawsOf n = (streamId n k).toNat + t := by
  have hk := Nat.mod_lt k (pawsOf_pos h0 hn)
  have hlo := (pawsOf_bounds h0 hn).1
  rw [toNat_streamId h0 hn, toNat_streamId h0 hn, Nat.add_mod, Nat.mod_eq_of_lt (a := t) (by omega)]
  rcases Nat.lt_or_ge (k % pawsOf n + t) (pawsOf n) with hlt | hge
  · rw [Nat.mod_eq_of_lt hlt]
    exact .inl rfl
  · rw [Nat.mod_eq_sub_mod hge, Nat.mod_eq_of_lt (by omega)]
    exact .inr (by omega)

theorem toNat_streamId_lt (k : Nat) : (streamId n k).toNat < pawsOf n := by
  rw [toNat_streamId h0 hn]
  exact Nat.mod_lt k (pawsOf_pos h0 hn)

/-- **The ids of a stream are compared as its packets are numbered**, less than half the ids
apart. -/
theorem itimediff_streamId {j k : Nat} (hj : j + 512 < k + 2 ^ 31) (hk : k + 512 < j + 2 ^ 31) :
    (0 < itimediff (streamId n k) (streamId n j) ↔ j < k) ∧
      (0 ≤ itimediff (streamId n k) (streamId n j) ↔ j ≤ k) := by
  have hb := pawsOf_bounds h0 hn
  have hjlt := toNat_streamId_lt h0 hn j
  have hklt := toNat_streamId_lt h0 hn k
  rw [itimediff_pos, itimediff_nonneg, UInt32.toNat_sub]
  rcases Nat.le_total j k with hle | hle
  · obtain ⟨t, rfl⟩ := Nat.exists_eq_add_of_le hle
    rcases toNat_streamId_add h0 hn j (t := t) (by omega) with h | h <;> omega
  · obtain ⟨t, rfl⟩ := Nat.exists_eq_add_of_le hle
    rcases toNat_streamId_add h0 hn k (t := t) (by omega) with h | h <;> omega

theorem streamId_inj {j k : Nat} (hj : j + 512 < k + 2 ^ 31) (hk : k + 512 < j + 2 ^ 31)
    (h : streamId n j = streamId n k) : j = k := by
  have hself : 0 ≤ itimediff (streamId n k) (streamId n k) := by
    rw [itimediff_nonneg, UInt32.sub_self]
    decide
  have hjk := (itimediff_streamId h0 hn hj hk).2
  have hkj := (itimediff_streamId h0 hn hk hj).2
  rw [h] at hjk hkj
  exact Nat.le_antisymm (hjk.1 hself) (hkj.1 hself)

/-! ## Blocks -/

/-- An id is its place in the block and the block's first id. -/
theorem toNat_streamId_block (k : Nat) :
    (streamId n k).toNat = k % n + n * (k / n % (0xffffffff / n - 1)) := by
  rw [toNat_streamId h0 hn, pawsOf, Nat.mul_comm, Nat.mod_mul]

theorem toNat_shardBegin_streamId (k : Nat) :
    (shardBegin (UInt32.ofNat n) (streamId n k)).toNat = n * (k / n % (0xffffffff / n - 1)) := by
  rw [toNat_shardBegin hn, toNat_streamId_block h0 hn, Nat.add_mul_div_left _ _ h0,
    Nat.div_eq_of_lt (Nat.mod_lt k h0), Nat.zero_add]

/-- A block begins with the id of its first packet. -/
theorem shardBegin_streamId (k : Nat) :
    shardBegin (UInt32.ofNat n) (streamId n k) = streamId n (n * (k / n)) := by
  rw [← UInt32.toNat_inj, toNat_shardBegin_streamId h0 hn, toNat_streamId_block h0 hn,
    Nat.mul_mod_right, Nat.mul_div_right _ h0, Nat.zero_add]

theorem shardEnd_streamId (k : Nat) :
    shardEnd (UInt32.ofNat n) (streamId n k) = streamId n (n * (k / n) + (n - 1)) := by
  have htn := UInt32.toNat_ofNat_of_lt' (Nat.lt_of_le_of_lt hn (by decide : 256 < UInt32.size))
  have hlast : (streamId n (n * (k / n) + (n - 1))).toNat
      = n - 1 + n * (k / n % (0xffffffff / n - 1)) := by
    rw [toNat_streamId_block h0 hn, Nat.mul_add_mod, Nat.mod_eq_of_lt (by omega),
      Nat.mul_add_div h0, Nat.div_eq_of_lt (a := n - 1) (by omega), Nat.add_zero]
  have hlt := (streamId n (n * (k / n) + (n - 1))).toNat_lt
  have hfirst := toNat_shardBegin_streamId h0 hn k
  rw [← UInt32.toNat_inj, hlast, shardEnd, UInt32.toNat_sub, UInt32.toNat_add, hfirst, htn,
    UInt32.toNat_one]
  omega

theorem pastBlock_streamId {j k : Nat} (hj : j + 1024 < k + 2 ^ 31) (hk : k + 1024 < j + 2 ^ 31) :
    PastBlock (UInt32.ofNat n) (streamId n k) (streamId n j) ↔ k / n < j / n := by
  have hm := Nat.div_add_mod k n
  have hlt := Nat.mod_lt k h0
  rw [PastBlock, shardEnd_streamId h0 hn, (itimediff_streamId h0 hn (by omega) (by omega)).1,
    lt_div_iff_bounds h0]
  omega

theorem inBlock_streamId {j k : Nat} (hj : j + 1024 < k + 2 ^ 31) (hk : k + 1024 < j + 2 ^ 31) :
    InBlock (UInt32.ofNat n) (streamId n k) (streamId n j) ↔ j / n = k / n := by
  have hm := Nat.div_add_mod k n
  have hlt := Nat.mod_lt k h0
  rw [InBlock, pastBlock_streamId h0 hn hj hk, shardBegin_streamId h0 hn,
    (itimediff_streamId h0 hn (by omega) (by omega)).2, div_eq_iff_bounds h0, lt_div_iff_bounds h0]
  omega

theorem shardBegin_eq_iff {j k : Nat} (hj : j + 1024 < k + 2 ^ 31) (hk : k + 1024 < j + 2 ^ 31) :
    shardBegin (UInt32.ofNat n) (streamId n j) = shardBegin (UInt32.ofNat n) (streamId n k) ↔
      j / n = k / n := by
  have hjm := Nat.div_add_mod j n
  have hjlt := Nat.mod_lt j h0
  have hkm := Nat.div_add_mod k n
  have hklt := Nat.mod_lt k h0
  rw [shardBegin_streamId h0 hn, shardBegin_streamId h0 hn]
  constructor
  · intro h
    exact Nat.eq_of_mul_eq_mul_left h0 (streamId_inj h0 hn (by omega) (by omega) h)
  · intro h
    rw [h]

end

/-! ## A stretch of a stream -/

/-- The number of the packet with id `s`, of those from `k₀` on. -/
def position (n k₀ : Nat) (s : UInt32) : Nat :=
  k₀ + (s.toNat + pawsOf n - k₀ % pawsOf n) % pawsOf n

/-- `q` has the id of one of the `m` packets from `k₀` on. -/
def InStretch (n k₀ m : Nat) (q : FecPacket) : Prop :=
  ∃ k, k₀ ≤ k ∧ k < k₀ + m ∧ q.seqid = streamId n k

section
variable {n k₀ m : Nat} (h0 : 0 < n) (hn : n ≤ 256) (hm : m < 2 ^ 30)
include h0 hn

theorem position_streamId {k : Nat} (hlo : k₀ ≤ k) (hhi : k < k₀ + 2 ^ 30) :
    position n k₀ (streamId n k) = k := by
  have hb := pawsOf_bounds h0 hn
  have hlt := toNat_streamId_lt h0 hn k₀
  have hk₀ := toNat_streamId h0 hn k₀
  obtain ⟨t, rfl⟩ := Nat.exists_eq_add_of_le hlo
  unfold position
  rw [← hk₀]
  rcases toNat_streamId_add h0 hn k₀ (t := t) (by omega) with h | h
  · rw [h,
      show (streamId n k₀).toNat + t + pawsOf n - (streamId n k₀).toNat = t + pawsOf n by omega,
      Nat.add_mod_right, Nat.mod_eq_of_lt (by omega)]
  · rw [h, Nat.add_sub_cancel_left, Nat.mod_eq_of_lt (by omega)]

include hm

theorem InStretch.position {q : FecPacket} (h : InStretch n k₀ m q) :
    ∃ k, q.seqid = streamId n k ∧ position n k₀ q.seqid = k ∧ k₀ ≤ k ∧ k < k₀ + 2 ^ 30 := by
  obtain ⟨k, hlo, hhi, hq⟩ := h
  have hlt : k < k₀ + 2 ^ 30 := by omega
  exact ⟨k, hq, by rw [hq, position_streamId h0 hn hlo hlt], hlo, hlt⟩

/-- Two packets of a stretch are near enough to compare them and their blocks. -/
theorem InStretch.near {q r : FecPacket} (hq : InStretch n k₀ m q) (hr : InStretch n k₀ m r) :
    ∃ j k, (q.seqid = streamId n j ∧ Faketcp.position n k₀ q.seqid = j) ∧
      (r.seqid = streamId n k ∧ Faketcp.position n k₀ r.seqid = k) ∧
      j + 1024 < k + 2 ^ 31 ∧ k + 1024 < j + 2 ^ 31 := by
  obtain ⟨j, hqid, hj, hq⟩ := hq.position h0 hn hm
  obtain ⟨k, hrid, hk, hr⟩ := hr.position h0 hn hm
  exact ⟨j, k, ⟨hqid, hj⟩, ⟨hrid, hk⟩, by omega, by omega⟩

theorem pastBlock_stretch {q r : FecPacket} (hq : InStretch n k₀ m q) (hr : InStretch n k₀ m r) :
    PastBlock (UInt32.ofNat n) q.seqid r.seqid ↔
      position n k₀ q.seqid / n < position n k₀ r.seqid / n := by
  obtain ⟨j, k, ⟨hqid, hj⟩, ⟨hrid, hk⟩, hjk, hkj⟩ := hq.near h0 hn hm hr
  rw [hj, hk, hqid, hrid]
  exact pastBlock_streamId h0 hn hkj hjk

theorem shardBegin_stretch {q r : FecPacket} (hq : InStretch n k₀ m q) (hr : InStretch n k₀ m r) :
    shardBegin (UInt32.ofNat n) q.seqid = shardBegin (UInt32.ofNat n) r.seqid ↔
      position n k₀ q.seqid / n = position n k₀ r.seqid / n := by
  obtain ⟨j, k, ⟨hqid, hj⟩, ⟨hrid, hk⟩, hjk, hkj⟩ := hq.near h0 hn hm hr
  rw [hj, hk, hqid, hrid]
  exact shardBegin_eq_iff h0 hn hjk hkj

/-- **The packets of a stretch of a stream are placed**, also where the stretch straddles the
wrap. -/
theorem placed_stretch : Placed n (fun q => position n k₀ q.seqid) (InStretch n k₀ m) where
  lt_iff := fun {q r} hq hr => by
    obtain ⟨j, k, ⟨hqid, hj⟩, ⟨hrid, hk⟩, hjk, hkj⟩ := hq.near h0 hn hm hr
    rw [hj, hk, hqid, hrid]
    exact (itimediff_streamId h0 hn (by omega) (by omega)).1
  eq_of_key := fun {q r} hq hr h => by
    obtain ⟨j, k, ⟨hqid, hj⟩, ⟨hrid, hk⟩, -⟩ := hq.near h0 hn hm hr
    rw [hj, hk] at h
    rw [hqid, hrid, h]
  mod := fun {q} hq => by
    obtain ⟨k, hid, hk, -⟩ := hq.position h0 hn hm
    rw [hk, hid, UInt32.toNat_mod, UInt32.toNat_ofNat', Nat.mod_eq_of_lt (a := n) (by omega),
      toNat_streamId h0 hn, mod_pawsOf_mod]
  inBlock := fun {q r} hq hr => by
    obtain ⟨j, k, ⟨hqid, hj⟩, ⟨hrid, hk⟩, hjk, hkj⟩ := hq.near h0 hn hm hr
    rw [hj, hk, hqid, hrid]
    exact inBlock_streamId h0 hn hkj hjk

end

end Faketcp
