import TcpRaw.Fec.Decoder
import TcpRaw.FecV2.AutoTune
import TcpRaw.Lib.GoMap

/-!
# The auto-tuning FEC decoder (`faketcp/fecv2/fec.go`, `fecDecoder`)

A packet is kept as the bytes of the wire, in a pool buffer of `mtuLimit` bytes. `shardSet` maps the
id of a block, the sequence id divided by the block size, to the packets collected of it. Once a
block has as many packets as data shards they are all taken out (`popAll`), and what is missing of
its data shards is reconstructed (`FecDecoder.recoverShards`). Every packet moves `minShardId` up to
its block; `flushShards` drops the blocks that are more than `maxShardSets` behind.

The tuner sees every packet. A packet whose flag does not fit its position sets `shouldTune`; from
then on every call only tries to read new parameters off the tuner (`FecDecoder.retune`), until they
differ from the present ones.

The decode and flag caches are reset at each use, so only their size is kept (`cacheSize`);
`rxlimit` is never used. `Push` and `Pop` are the methods of `shardHeap` itself, not those of
`container/heap`, so elements come out last in, first out. `Snmp` are the counters of `DefaultSnmp`
that the decoder and the encoder write.
-/

namespace Fecv2

open GoRt Erasure
open Faketcp (itimediff collectMissing)

def mtuLimit : Nat := 1500

def fecHeaderSize : Nat := 6

def typeData : UInt16 := 0xf1

def typeParity : UInt16 := 0xf2

def maxShardSets : Int32 := 3

/-- What `xmitBuf.Get` returns: `mtuLimit` bytes of any contents. -/
structure PoolBuf where
  arr : Bytes
  size : arr.length = mtuLimit

/-- The buffer of the pool's `New`. -/
def PoolBuf.new : PoolBuf := ⟨List.replicate mtuLimit 0, List.length_replicate⟩

/-- The FEC counters of `Snmp`. -/
structure Snmp where
  fecFullShardSet : UInt64
  fecRecovered : UInt64
  fecErrs : UInt64
  fecParityShards : UInt64
  fecShardSet : UInt64
  fecShardMin : UInt64
  deriving DecidableEq, Repr

/-- `newSnmp` -/
def newSnmp : Snmp := ⟨0, 0, 0, 0, 0, 0⟩

/-! ## Packets -/

/-- A FEC packet, `fecPacket`: the bytes of the wire. -/
abbrev FecPacket := Slice UInt8

/-- `fecPacket.seqid` -/
def seqid (bts : FecPacket) : Go UInt32 := leUint32 bts.data

/-- `fecPacket.flag` -/
def flag (bts : FecPacket) : Go UInt16 := sliceFrom bts.data 4 >>= leUint16

/-- `fecPacket.data` -/
def data (bts : FecPacket) : Go (Slice UInt8) := bts.range 6 bts.len

/-! ## Shard sets -/

/-- A correlated set of shards from the peer. -/
structure ShardHeap where
  elements : List FecPacket
  marks : GoMap UInt32 Unit -- to avoid duplicates

/-- `newShardHeap` -/
def newShardHeap : ShardHeap := ⟨[], ∅⟩

/-- `shardHeap.Len` -/
def ShardHeap.len (h : ShardHeap) : Nat := h.elements.length

/-- `shardHeap.Push` -/
def ShardHeap.push (h : ShardHeap) (x : FecPacket) : Go ShardHeap := do
  let sn ← seqid x
  pure { elements := h.elements ++ [x], marks := h.marks.insert sn () }

/-- `shardHeap.Pop` -/
def ShardHeap.pop (h : ShardHeap) : Go (FecPacket × ShardHeap) := do
  let x ← index h.elements (h.len - 1)
  let sn ← seqid x
  pure (x, { elements := h.elements.take (h.len - 1), marks := h.marks.erase sn })

/-- `shardHeap.Has` -/
def ShardHeap.has (h : ShardHeap) (sn : UInt32) : Bool := (h.marks.lookup sn).isSome

/-! ## The decoder -/

/-- The decoder's state. -/
structure FecDecoder where
  dataShards : Nat
  parityShards : Nat
  shardSize : Nat
  shardSet : GoMap UInt32 ShardHeap
  minShardId : UInt32
  cacheSize : Nat -- the length of `decodeCache` and `flagCache`
  codec : Codec UInt8
  autoTune : AutoTune
  shouldTune : Bool

/-- `newFECDecoder`, with `rs` the codec library's constructor. -/
def newFECDecoder (rs : Nat → Nat → Option (Codec UInt8)) (dataShards parityShards : Nat) :
    Option FecDecoder :=
  if dataShards = 0 ∨ parityShards = 0 then none
  else (rs dataShards parityShards).map fun codec =>
    { dataShards, parityShards
      shardSize := dataShards + parityShards
      shardSet := ∅
      minShardId := 0
      cacheSize := dataShards + parityShards
      codec
      autoTune := AutoTune.new
      shouldTune := false }

/-- The first part of `decode`: sample to the auto FEC tuner, and check if the FEC parameters are
out of sync. -/
def FecDecoder.observe (dec : FecDecoder) (flag : UInt16) (seqid : UInt32) : FecDecoder :=
  let autoTune :=
    if flag = typeData then dec.autoTune.sample true seqid else dec.autoTune.sample false seqid
  let shouldTune :=
    if seqid.toNat % dec.shardSize < dec.dataShards then
      if flag ≠ typeData then true else dec.shouldTune -- expect typeData
    else if flag ≠ typeParity then true else dec.shouldTune
  { dec with autoTune, shouldTune }

/-- Try to detect the pattern in a signal that is out of sync. -/
def FecDecoder.retune (rs : Nat → Nat → Option (Codec UInt8)) (dec : FecDecoder) : FecDecoder :=
  let autoDS := dec.autoTune.findPeriod true
  let autoPS := dec.autoTune.findPeriod false
  -- edges found, we can tune parameters now
  if autoDS > 0 ∧ autoPS > 0 ∧ autoDS < 256 ∧ autoPS < 256 then
    -- and make sure it's different
    if autoDS ≠ dec.dataShards ∨ autoPS ≠ dec.parityShards then
      let dec := { dec with
        dataShards := autoDS.toNat
        parityShards := autoPS.toNat
        shardSize := autoDS.toNat + autoPS.toNat
        shardSet := ∅ }
      match rs autoDS.toNat autoPS.toNat with
      | some codec => { dec with codec, cacheSize := dec.shardSize, shouldTune := false }
      | none => dec
    else dec
  else dec

/-- `getShardId` -/
def FecDecoder.getShardId (dec : FecDecoder) (seqid : UInt32) : UInt32 :=
  seqid / UInt32.ofNat dec.shardSize

/-- The working set for decoding. -/
structure WorkingSet where
  shards : List (Option (Slice UInt8))
  shardsflag : List Bool
  numDataShard : Nat
  maxlen : Nat

/-- The zeroed caches and counters. -/
def WorkingSet.zero (cacheSize : Nat) : WorkingSet where
  shards := List.replicate cacheSize none
  shardsflag := List.replicate cacheSize false
  numDataShard := 0
  maxlen := 0

/-- Put a packet into the working set of blocks of `n` shards. -/
def WorkingSet.put (w : WorkingSet) (n : UInt32) (pkt : FecPacket) : Go WorkingSet := do
  let sn ← seqid pkt
  let shard ← data pkt
  let shards ← setIndex w.shards (sn % n).toNat (some shard)
  let shardsflag ← setIndex w.shardsflag (sn % n).toNat true
  let fl ← flag pkt
  pure
    { shards, shardsflag
      numDataShard := if fl = typeData then w.numDataShard + 1 else w.numDataShard
      maxlen := if shard.len > w.maxlen then shard.len else w.maxlen }

/-- Pop all packets from the shard heap, which has `count` of them. -/
def popAll (n : UInt32) : Nat → ShardHeap → WorkingSet → Go (ShardHeap × WorkingSet)
  | 0, shard, w => pure (shard, w)
  | count + 1, shard, w => do
    let r ← shard.pop
    let w ← w.put n r.1
    popAll n count r.2 w

/-- A shard re-sliced to `maxlen`, with its new part cleared. -/
def extendShard (maxlen : Nat) (s : Slice UInt8) : Go (Slice UInt8) :=
  s.upto maxlen >>= fun t => t.copyRange s.len maxlen (List.replicate (maxlen - s.len) 0)

theorem emptyShard_le : 0 ≤ (List.replicate mtuLimit (0 : UInt8)).length := Nat.zero_le _

/-- Memory for the data recovery: a pool buffer cut to length 0. -/
def emptyShard : Slice UInt8 := ⟨List.replicate mtuLimit 0, 0, emptyShard_le⟩

/-- Make the length of each shard from position `k` on equal, and prepare memory for the missing
data shards. -/
def equalize (dataShards maxlen : Nat) :
    Nat → List (Option (Slice UInt8)) → Go (List (Option (Slice UInt8)))
  | _, [] => pure []
  | k, some s :: shards => do
    let s ← extendShard maxlen s
    let shards ← equalize dataShards maxlen (k + 1) shards
    pure (some s :: shards)
  | k, none :: shards => do
    let shards ← equalize dataShards maxlen (k + 1) shards
    pure ((if k < dataShards then some emptyShard else none) :: shards)

/-- A shard as the codec library sees it: one of length 0 is missing. -/
def codecShard (s : Option (Slice UInt8)) : Option Bytes :=
  s.bind fun s => if s.len = 0 then none else some s.data

/-- Loss on data shards, but it's recoverable from parity shards. -/
def FecDecoder.recoverShards (dec : FecDecoder) (w : WorkingSet) (snmp : Snmp) :
    Go (List Bytes × Snmp) := do
  let shards ← equalize dec.dataShards w.maxlen 0 w.shards
  match dec.codec.reconstructData (shards.map codecShard) with
  | some out => do
    let _ ← sliceRange shards 0 dec.dataShards
    let recovered ← collectMissing w.shardsflag out (List.range dec.dataShards)
    pure (recovered,
      { snmp with fecRecovered := snmp.fecRecovered + UInt64.ofNat recovered.length })
  -- record the error, and still keep the seqid monotonic increasing
  | none => pure ([], { snmp with fecErrs := snmp.fecErrs + 1 })

/-- Collected enough shards: empty the heap, and recover what is missing. -/
def FecDecoder.completeShard (dec : FecDecoder) (shard : ShardHeap) (snmp : Snmp) :
    Go (List Bytes × ShardHeap × Snmp) := do
  let r ← popAll (UInt32.ofNat dec.shardSize) shard.len shard (WorkingSet.zero dec.cacheSize)
  if r.2.numDataShard = dec.dataShards then
    -- do nothing if all shards are present
    pure ([], r.1, { snmp with fecFullShardSet := snmp.fecFullShardSet + 1 })
  else do
    let out ← dec.recoverShards r.2 snmp
    pure (out.1, r.1, out.2)

/-- The shard is too old for the decoder. -/
def FecDecoder.tooOld (dec : FecDecoder) (shardId : UInt32) : Bool :=
  decide (itimediff dec.minShardId shardId > maxShardSets)

/-- `flushShards`: remove shards that are too old from the shardSet. -/
def FecDecoder.flushShards (dec : FecDecoder) (snmp : Snmp) : FecDecoder × Snmp :=
  let shardSet := GoMap.eraseAll dec.shardSet (dec.shardSet.keys.filter dec.tooOld)
  ({ dec with shardSet }, { snmp with fecShardSet := UInt64.ofNat shardSet.keys.length })

/-- Update the minimum shard id based on the current shard. -/
def FecDecoder.raiseMin (dec : FecDecoder) (shardId : UInt32) (snmp : Snmp) : FecDecoder × Snmp :=
  if itimediff shardId dec.minShardId > 0 then
    ({ dec with minShardId := shardId }, { snmp with fecShardMin := shardId.toUInt64 })
  else (dec, snmp)

/-- Insert the packet into its shard heap, and decode the shard once it has enough packets. -/
def FecDecoder.insertPacket (dec : FecDecoder) (shardId : UInt32) (shard : ShardHeap) (snmp : Snmp)
    (pkt : FecPacket) (buf : PoolBuf) : Go (List Bytes × FecDecoder × Snmp) := do
  let pkt ← (Slice.ofList buf.arr).upto pkt.len >>= fun t => t.copyRange 0 pkt.len pkt.data
  let shard ← shard.push pkt
  let r ← if shard.len ≥ dec.dataShards then dec.completeShard shard snmp
    else pure ([], shard, snmp)
  let s :=
    FecDecoder.raiseMin { dec with shardSet := dec.shardSet.insert shardId r.2.1 } shardId r.2.2
  -- discard shards that are too old
  pure (r.1, s.1.flushShards s.2)

/-- The last part of `decode`, in sync: get the shard of the packet, unless it is too late for it or
a duplicate. -/
def FecDecoder.receive (dec : FecDecoder) (flag : UInt16) (seqid : UInt32) (snmp : Snmp)
    (pkt : FecPacket) (buf : PoolBuf) : Go (List Bytes × FecDecoder × Snmp) :=
  let shardId := dec.getShardId seqid
  if itimediff shardId dec.minShardId < 0 then pure ([], dec, snmp)
  else
    let shard := (dec.shardSet.lookup shardId).getD newShardHeap
    let snmp :=
      if (dec.shardSet.lookup shardId).isSome then snmp
      else { snmp with fecShardSet := snmp.fecShardSet + 1 }
    -- de-duplicate
    if shard.has seqid then pure ([], dec, snmp)
    else
      let snmp :=
        if flag = typeParity then { snmp with fecParityShards := snmp.fecParityShards + 1 }
        else snmp
      dec.insertPacket shardId shard snmp pkt buf

/-- `fecDecoder.decode`, with `buf` the buffer that the pool gives. -/
def FecDecoder.decode (rs : Nat → Nat → Option (Codec UInt8)) (dec : FecDecoder) (snmp : Snmp)
    (pkt : FecPacket) (buf : PoolBuf) : Go (List Bytes × FecDecoder × Snmp) := do
  let fl ← flag pkt
  let sn ← seqid pkt
  let dec := dec.observe fl sn
  -- if signal is out-of-sync, try to detect the pattern in the signal
  if dec.shouldTune then pure ([], dec.retune rs, snmp)
  else dec.receive fl sn snmp pkt buf

/-- A packet that arrives, and the buffer that the pool gives for it. -/
structure Arrival where
  pkt : FecPacket
  buf : PoolBuf

/-- The calls of `decode` on the packets that arrive: what each returns, and the state after
them. -/
def FecDecoder.decodeAll (rs : Nat → Nat → Option (Codec UInt8)) :
    List Arrival → FecDecoder → Snmp → Go (List (List Bytes) × FecDecoder × Snmp)
  | [], dec, snmp => pure ([], dec, snmp)
  | a :: arrivals, dec, snmp => do
    let r ← dec.decode rs snmp a.pkt a.buf
    let rest ← FecDecoder.decodeAll rs arrivals r.2.1 r.2.2
    pure (r.1 :: rest.1, rest.2)

end Fecv2
