import TcpRaw.Fec.Encoder
import TcpRaw.FecV2.Decoder

/-!
# The second encoder (`faketcp/fecv2/fec.go`, `fecEncoder`)

`FecEncoder.encode` stamps the caller's packet in place (`sealData`, size) and copies what is behind
the header into the shard cache. With the last packet of a block it computes the parity packets, but
only if that packet came within `rto` milliseconds of the one before: the sender is idle otherwise,
and the sequence ids of the parity packets are left out (`skipParity`), so that every block starts
at a multiple of the block size. The bytes in front of `headerOffset` are the caller's and are never
copied.

The clock is an argument of each call: `now` is what `time.Now().UnixMilli()` gives.
-/

namespace Fecv2

open GoRt Erasure
open Faketcp (fecHeaderSize putHeader stripHeaders writeParity)

/-- The encoder's state, `fecEncoder`. `encodeCache` holds no data of its own. -/
structure FecEncoder where
  dataShards : Nat
  parityShards : Nat
  shardSize : Nat
  paws : UInt32
  next : UInt32
  shardCount : Nat
  maxSize : Nat
  headerOffset : Nat
  payloadOffset : Nat
  shardCache : List (Slice UInt8)
  tsLatestPacket : Int64
  codec : Codec UInt8

/-- `newFECEncoder`, with `rs` the codec library's constructor. -/
def newFECEncoder (rs : Nat → Nat → Option (Codec UInt8)) (dataShards parityShards offset : Nat) :
    Option FecEncoder :=
  if dataShards = 0 ∨ parityShards = 0 then none
  else (rs dataShards parityShards).map fun codec =>
    { dataShards, parityShards
      shardSize := dataShards + parityShards
      paws := 0xffffffff / UInt32.ofNat (dataShards + parityShards)
        * UInt32.ofNat (dataShards + parityShards)
      next := 0
      shardCount := 0
      maxSize := 0
      headerOffset := offset
      payloadOffset := offset + fecHeaderSize
      shardCache := List.replicate (dataShards + parityShards)
        (Slice.ofList (List.replicate mtuLimit 0))
      tsLatestPacket := 0
      codec }

/-- `sealData` and `sealParity`, on `data[headerOffset:]`. -/
def FecEncoder.sealAs (flag : UInt16) (enc : FecEncoder) (data : Slice UInt8) :
    Go (Slice UInt8 × FecEncoder) := do
  let data ← putHeader data enc.headerOffset enc.next flag
  pure (data, { enc with next := (enc.next + 1) % enc.paws })

def FecEncoder.sealData : FecEncoder → Slice UInt8 → Go (Slice UInt8 × FecEncoder) :=
  FecEncoder.sealAs typeData

def FecEncoder.sealParity : FecEncoder → Slice UInt8 → Go (Slice UInt8 × FecEncoder) :=
  FecEncoder.sealAs typeParity

/-- `skipParity` -/
def FecEncoder.skipParity (enc : FecEncoder) : FecEncoder :=
  { enc with next := (enc.next + UInt32.ofNat enc.parityShards) % enc.paws }

/-- Write the payload's size, its own two bytes included, at `b[payloadOffset:]`. -/
def FecEncoder.putSize (enc : FecEncoder) (b : Slice UInt8) : Go (Slice UInt8) :=
  if enc.payloadOffset > b.len then .error .sliceBounds
  else if enc.payloadOffset + 2 ≤ b.len then
    b.copyRange enc.payloadOffset (enc.payloadOffset + 2)
      (leBytes16 (UInt16.ofNat (b.len - enc.payloadOffset)))
  else .error .indexOutOfRange

/-- Copy the packet from `payloadOffset` on into the next data shard, and track the largest one. -/
def FecEncoder.cacheShard (enc : FecEncoder) (b : Slice UInt8) : Go FecEncoder := do
  let sz := b.len
  let shard ← index enc.shardCache enc.shardCount
  let shard ← shard.upto sz
  let shard ← shard.copyRange enc.payloadOffset sz (b.data.drop enc.payloadOffset)
  let shardCache ← setIndex enc.shardCache enc.shardCount shard
  pure
    { enc with
      shardCache
      shardCount := enc.shardCount + 1
      maxSize := if sz > enc.maxSize then sz else enc.maxSize }

/-- `clear(shard[slen:maxSize])` on each data shard. -/
def clearTails (maxSize : Nat) : List (Slice UInt8) → Go (List (Slice UInt8))
  | [] => pure []
  | shard :: rest => do
    let shard ← shard.copyRange shard.len maxSize (List.replicate (maxSize - shard.len) 0)
    let rest ← clearTails maxSize rest
    pure (shard :: rest)

/-- Seal the parity packets in turn and cut them to `maxSize`. -/
def FecEncoder.sealAll (enc : FecEncoder) :
    List (Slice UInt8) → Go (List (Slice UInt8) × FecEncoder)
  | [] => pure ([], enc)
  | p :: ps => do
    let (p, enc) ← enc.sealParity p
    let p ← p.upto enc.maxSize
    let (ps, enc) ← enc.sealAll ps
    pure (p :: ps, enc)

/-- Generate the Reed-Solomon erasure code of the cached block: its parity packets. -/
def FecEncoder.encodeBlock (enc : FecEncoder) (snmp : Snmp) :
    Go (List (Slice UInt8) × FecEncoder × Snmp) := do
  let shards ← clearTails enc.maxSize (enc.shardCache.take enc.dataShards)
  let cache ← stripHeaders enc.payloadOffset enc.maxSize
    (shards ++ enc.shardCache.drop enc.dataShards)
  match enc.codec.encode ((cache.take enc.dataShards).map Slice.data) with
  | some parity => do
    let ps ← writeParity enc.payloadOffset enc.maxSize (enc.shardCache.drop enc.dataShards) parity
    let (ps, enc) ← enc.sealAll ps
    pure (ps, { enc with shardCache := shards ++ ps }, snmp)
  | none =>
    -- record the error, and still keep the seqid monotonic increasing
    let enc := { enc with shardCache := shards ++ enc.shardCache.drop enc.dataShards }
    pure ([], enc.skipParity, { snmp with fecErrs := snmp.fecErrs + 1 })

/-- The data is continuous: the latest packet is less than `rto` old. -/
def FecEncoder.Continuous (enc : FecEncoder) (rto : UInt32) (now : Int64) : Prop :=
  now - enc.tsLatestPacket < rto.toUInt64.toInt64

instance (enc : FecEncoder) (rto : UInt32) (now : Int64) : Decidable (enc.Continuous rto now) :=
  inferInstanceAs (Decidable (now - enc.tsLatestPacket < rto.toUInt64.toInt64))

/-- A call of `encode`: the caller's packet, its `rto` and the time. -/
structure Call where
  b : Slice UInt8
  rto : UInt32
  now : Int64

/-- `encode`: the packet as it is stamped, and the parity packets if it completes its block. -/
def FecEncoder.encode (enc : FecEncoder) (snmp : Snmp) (call : Call) :
    Go (Slice UInt8 × List (Slice UInt8) × FecEncoder × Snmp) := do
  let (b, enc) ← enc.sealData call.b
  let b ← enc.putSize b
  let enc ← enc.cacheShard b
  if enc.shardCount = enc.dataShards then do
    let (ps, enc, snmp) ←
      if enc.Continuous call.rto call.now then enc.encodeBlock snmp
      else pure ([], enc.skipParity, snmp)
    -- resetting the shard count and max size
    pure (b, ps, { enc with shardCount := 0, maxSize := 0, tsLatestPacket := call.now }, snmp)
  else pure (b, [], { enc with tsLatestPacket := call.now }, snmp)

/-- The calls of `encode` in turn: the packets of each, and the state after them. -/
def FecEncoder.encodeAll : List Call → FecEncoder → Snmp →
    Go (List (Slice UInt8 × List (Slice UInt8)) × FecEncoder × Snmp)
  | [], enc, snmp => pure ([], enc, snmp)
  | call :: calls, enc, snmp => do
    let (b, ps, enc, snmp) ← enc.encode snmp call
    let (rest, enc, snmp) ← FecEncoder.encodeAll calls enc snmp
    pure ((b, ps) :: rest, enc, snmp)

end Fecv2
