import TcpRaw.Fec.Packet
import TcpRaw.Lib.Erasure

/-!
# The FEC encoder (`faketcp/fec.go`, `FecEncoder`)

`FecEncoder.encode` stamps a data packet (`markData`, size), copies it into the shard cache
(`cacheShard`) and, with the block's last data shard, computes the parity of the block
(`encodeBlock`) and stamps its parity packets (`markFEC`). The shard cache is reused from block to
block: its slices keep their backing arrays, and what is beyond their length is left over from
earlier blocks. `encodeCache` holds no data of its own: it is the payload part of the shards.
-/

namespace Faketcp

open GoRt Erasure

/-- The encoder's state. -/
structure FecEncoder where
  dataShards : Nat
  parityShards : Nat
  shardSize : Nat
  paws : UInt32
  next : UInt32
  shardCount : Nat
  maxSize : Nat
  headerOffset : Nat
  payloadOffset : Nat
  shardCache : List (Slice UInt8)
  zeros : Bytes
  codec : Codec UInt8

/-- What the codec library's constructor accepts: `reedsolomon.New` fails above 65536 shards. -/
def ShardLimit (rs : Nat → Nat → Option (Codec UInt8)) : Prop :=
  ∀ d p codec, rs d p = some codec → d + p ≤ 65536

/-- `NewFECEncoder`, with `rs` the codec library's constructor. -/
def newFECEncoder (rs : Nat → Nat → Option (Codec UInt8)) (dataShards parityShards offset : Nat) :
    Option FecEncoder :=
  if dataShards = 0 ∨ parityShards = 0 then none
  else (rs dataShards parityShards).map fun codec =>
    { dataShards, parityShards
      shardSize := dataShards + parityShards
      paws := (0xffffffff / UInt32.ofNat (dataShards + parityShards) - 1)
        * UInt32.ofNat (dataShards + parityShards)
      next := 0
      shardCount := 0
      maxSize := 0
      headerOffset := offset
      payloadOffset := offset + fecHeaderSize
      shardCache := List.replicate (dataShards + parityShards)
        (Slice.ofList (List.replicate mtuLimit 0))
      zeros := List.replicate mtuLimit 0
      codec }

/-- Write `seqid` and `flag` at `data[off:]`, which must be in view. -/
def putHeader (data : Slice UInt8) (off : Nat) (seqid : UInt32) (flag : UInt16) :
    Go (Slice UInt8) :=
  if off + 6 ≤ data.len then data.copyRange off (off + 6) (leBytes32 seqid ++ leBytes16 flag)
  else .error .indexOutOfRange

/-- `markData` on `b[headerOffset:]`. -/
def FecEncoder.markData (enc : FecEncoder) (b : Slice UInt8) : Go (Slice UInt8 × FecEncoder) := do
  let b ← putHeader b enc.headerOffset enc.next typeData
  pure (b, { enc with next := enc.next + 1 })

/-- `markFEC` on `p[headerOffset:]`. -/
def FecEncoder.markFEC (enc : FecEncoder) (p : Slice UInt8) : Go (Slice UInt8 × FecEncoder) := do
  let p ← putHeader p enc.headerOffset enc.next typeFEC
  pure (p, { enc with next := (enc.next + 1) % enc.paws })

/-- Write the payload's size, its own two bytes included, at `b[payloadOffset:]`. -/
def FecEncoder.putSize (enc : FecEncoder) (b : Slice UInt8) : Go (Slice UInt8) :=
  if enc.payloadOffset > b.len then .error .sliceBounds
  else if enc.payloadOffset + 2 ≤ b.len then
    b.copyRange enc.payloadOffset (enc.payloadOffset + 2)
      (leBytes16 (UInt16.ofNat (b.len - enc.payloadOffset)))
  else .error .indexOutOfRange

/-- Copy the packet into the next data shard, and record the largest data shard. -/
def FecEncoder.cacheShard (enc : FecEncoder) (b : Slice UInt8) : Go FecEncoder := do
  let sz := b.len
  let shard ← index enc.shardCache enc.shardCount
  let shard ← shard.upto sz >>= fun t => t.copyRange 0 sz b.data
  let shardCache ← setIndex enc.shardCache enc.shardCount shard
  pure
    { enc with
      shardCache
      shardCount := enc.shardCount + 1
      maxSize := if sz > enc.maxSize then sz else enc.maxSize }

/-- Zero each data shard's tail up to `maxSize`. -/
def bzeroTails (zeros : Bytes) (maxSize : Nat) : List (Slice UInt8) → Go (List (Slice UInt8))
  | [] => pure []
  | shard :: rest => do
    let shard ← shard.copyRange shard.len maxSize zeros
    let rest ← bzeroTails zeros maxSize rest
    pure (shard :: rest)

/-- The equal-sized slices with stripped header. -/
def stripHeaders (payloadOffset maxSize : Nat) :
    List (Slice UInt8) → Go (List (Slice UInt8))
  | [] => pure []
  | shard :: rest => do
    let shard ← shard.range payloadOffset maxSize
    let rest ← stripHeaders payloadOffset maxSize rest
    pure (shard :: rest)

/-- The parity that `codec.Encode` writes into the parity shards. -/
def writeParity (payloadOffset maxSize : Nat) :
    List (Slice UInt8) → List Bytes → Go (List (Slice UInt8))
  | [], _ => pure []
  | shard :: rest, parity => do
    let shard ← shard.copyRange payloadOffset maxSize (parity.headD [])
    let rest ← writeParity payloadOffset maxSize rest parity.tail
    pure (shard :: rest)

/-- Stamp the parity packets in turn and cut them to `maxSize`. -/
def FecEncoder.markParity (enc : FecEncoder) :
    List (Slice UInt8) → Go (List (Slice UInt8) × FecEncoder)
  | [] => pure ([], enc)
  | p :: ps => do
    let (p, enc) ← enc.markFEC p
    let p ← p.upto enc.maxSize
    let (ps, enc) ← enc.markParity ps
    pure (p :: ps, enc)

/-- Calculate the Reed-Solomon erasure code of the cached block: its parity packets. -/
def FecEncoder.encodeBlock (enc : FecEncoder) : Go (List (Slice UInt8) × FecEncoder) := do
  let shards ← bzeroTails enc.zeros enc.maxSize (enc.shardCache.take enc.dataShards)
  let cache ← stripHeaders enc.payloadOffset enc.maxSize
    (shards ++ enc.shardCache.drop enc.dataShards)
  match enc.codec.encode ((cache.take enc.dataShards).map Slice.data) with
  | some parity => do
    let ps ← writeParity enc.payloadOffset enc.maxSize (enc.shardCache.drop enc.dataShards) parity
    let (ps, enc) ← enc.markParity ps
    pure (ps, { enc with shardCache := shards ++ ps })
  | none => pure ([], { enc with shardCache := shards ++ enc.shardCache.drop enc.dataShards })

/-- `FecEncoder.Encode`: the stamped packet, and the parity packets if it completes its block. -/
def FecEncoder.encode (enc : FecEncoder) (b : Slice UInt8) :
    Go (Slice UInt8 × List (Slice UInt8) × FecEncoder) := do
  let (b, enc) ← enc.markData b
  let b ← enc.putSize b
  let enc ← enc.cacheShard b
  if enc.shardCount = enc.dataShards then do
    let (ps, enc) ← enc.encodeBlock
    -- reset counters to zero
    pure (b, ps, { enc with shardCount := 0, maxSize := 0 })
  else pure (b, [], enc)

end Faketcp
