import TcpRaw.Fec.Stream

/-!
# The packet stream of the second encoder

The blocks and shards are those of the other encoder's stream, with the same header. Sequence ids
wrap at `pawsOf n`, the largest multiple of the block size that 32 bits hold. Packet `k` of the
stream is shard `k % n` of block `k / n`; the parity packets of a block may not be sent at all,
their numbers are then left out.
-/

namespace Fecv2

open GoRt Erasure
open Faketcp (blockShard blockOf packet flagOf padTo blockLen sized)

/-- The sequence ids of blocks of `n` shards wrap here. -/
def pawsOf (n : Nat) : Nat := 0xffffffff / n * n

/-- Packet `k` of the stream of `ps`. -/
def streamPacket (codec : Codec UInt8) (d p : Nat) (ps : List Bytes) (k : Nat) : Option Bytes :=
  (blockShard codec d (blockOf d (k / (d + p)) ps) (k % (d + p))).map
    (packet (UInt32.ofNat (k % pawsOf (d + p))) (flagOf d (k % (d + p))))

/-- The shard of data packet `k`, padded to the length of its block's shards. -/
def dataShard (d p : Nat) (ps : List Bytes) (k : Nat) : Bytes :=
  padTo (blockLen (blockOf d (k / (d + p)) ps))
    (sized ((blockOf d (k / (d + p)) ps).getD (k % (d + p)) []))

theorem pawsOf_le (n : Nat) : pawsOf n ≤ 0xffffffff := Nat.div_mul_le_self _ _

theorem dvd_pawsOf (n : Nat) : n ∣ pawsOf n := Nat.dvd_mul_left n _

theorem pawsOf_pos {n : Nat} (h0 : 0 < n) (hn : n ≤ 65536) : 0 < pawsOf n := by
  have : 0 < 0xffffffff / n := Nat.div_pos (by omega) h0
  exact Nat.mul_pos this h0

theorem mod_pawsOf_lt {n : Nat} (h0 : 0 < n) (hn : n ≤ 65536) (k : Nat) :
    k % pawsOf n < 0xffffffff :=
  Nat.lt_of_lt_of_le (Nat.mod_lt k (pawsOf_pos h0 hn)) (pawsOf_le n)

theorem mod_pawsOf_mod (k n : Nat) : k % pawsOf n % n = k % n := Nat.mod_mod_of_dvd k (dvd_pawsOf n)

/-- Before the wrap a sequence id is the packet's number. -/
theorem toNat_id {k n : Nat} (hk : k < pawsOf n) : (UInt32.ofNat (k % pawsOf n)).toNat = k := by
  have := pawsOf_le n
  rw [Nat.mod_eq_of_lt hk]
  exact UInt32.toNat_ofNat_of_lt' (Nat.lt_of_lt_of_le hk (Nat.le_trans this (by decide)))

end Fecv2
