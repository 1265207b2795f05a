import TcpRaw.Fec.Packet
import TcpRaw.Lib.Erasure

/-!
# The FEC decoder (`faketcp/fec.go`, `FecDecoder`)

`rx` is the ordered receive queue. `FecDecoder.decode` inserts a packet into it (`insertionIndex`,
`insertRx`), looks at the window of `rx` that can hold the packet's block (`searchBegin`,
`searchEnd`), gathers the block's shards in it (`assemble`) and, once the block has enough of them,
reconstructs its missing data shards (`padShards`, `collectMissing`) and frees its packets
(`freeRange`); last it evicts the oldest packet when `rx` is over its limit (`keepLimit`).

Every index and slice expression keeps its bounds check. The decode and flag caches are reset at
each use, so they are local here; `codec` is the Reed-Solomon codec of the library.
-/

namespace Faketcp

open GoRt Erasure

/-- The decoder's state. -/
structure FecDecoder where
  rxlimit : Nat
  dataShards : Nat
  parityShards : Nat
  shardSize : Nat
  rx : List FecPacket
  zeros : Bytes
  codec : Codec UInt8

/-- `NewFECDecoder`, with `rs` the codec library's constructor. -/
def newFECDecoder (rs : Nat → Nat → Option (Codec UInt8)) (rxlimit dataShards parityShards : Nat) :
    Option FecDecoder :=
  if dataShards = 0 ∨ parityShards = 0 then none
  else if rxlimit < dataShards + parityShards then none
  else (rs dataShards parityShards).map fun codec =>
    { rxlimit, dataShards, parityShards, shardSize := dataShards + parityShards, rx := [],
      zeros := List.replicate mtuLimit 0, codec }

/-! ## Insertion -/

/-- The insertion scan from index `i - 1` down to 0: `none` for a packet that is already there. -/
def insertionIndex (rx : List FecPacket) (seqid : UInt32) : Nat → Go (Option Nat)
  | 0 => pure (some 0)
  | i + 1 => do
    let q ← index rx i
    if seqid = q.seqid then pure none -- de-duplicate
    else if 0 < itimediff seqid q.seqid then pure (some (i + 1)) -- insertion
    else insertionIndex rx seqid i

/-- Insert into the ordered queue at `i`, shifting the rest right. -/
def insertRx (rx : List FecPacket) (i : Nat) (pkt : FecPacket) : Go (List FecPacket) := do
  let tail ← sliceFrom rx i
  pure (rx.take i ++ pkt :: tail)

/-! ## Shard assembly -/

/-- First index of the search range of a packet inserted at `insertIdx`. -/
def searchBegin (n seqid : UInt32) (insertIdx : Nat) : Nat :=
  -- a negative value is set to 0, as the subtraction of naturals does
  insertIdx - (seqid % n).toNat

/-- Last index of the search range. -/
def searchEnd (shardSize searchBegin len : Nat) : Nat :=
  if searchBegin + shardSize - 1 ≥ len then len - 1 else searchBegin + shardSize - 1

/-- The variables of the shard assembly loop. -/
structure Assembly where
  shards : List (Option (Slice UInt8))
  shardsflag : List Bool
  numshard : Nat
  numDataShard : Nat
  first : Nat
  maxlen : Nat

/-- The zeroed caches and counters for blocks of `shardSize` shards. -/
def Assembly.init (shardSize : Nat) : Assembly where
  shards := List.replicate shardSize none
  shardsflag := List.replicate shardSize false
  numshard := 0
  numDataShard := 0
  first := 0
  maxlen := 0

/-- Add the packet `q`, at index `i` of the queue, to the block. -/
def Assembly.add (a : Assembly) (n : UInt32) (i : Nat) (q : FecPacket) : Go Assembly := do
  let k := (q.seqid % n).toNat
  let shards ← setIndex a.shards k (some q.data)
  let shardsflag ← setIndex a.shardsflag k true
  pure
    { shards, shardsflag
      numshard := a.numshard + 1
      numDataShard := if q.flag = typeData then a.numDataShard + 1 else a.numDataShard
      first := if a.numshard + 1 = 1 then i else a.first
      maxlen := if q.data.len > a.maxlen then q.data.len else a.maxlen }

/-- The assembly loop over `count` indices from `i` on, for the block of `seqid`. -/
def assemble (n seqid : UInt32) (rx : List FecPacket) : Nat → Nat → Assembly → Go Assembly
  | 0, _, a => pure a
  | count + 1, i, a => do
    let q ← index rx i
    if PastBlock n seqid q.seqid then pure a -- break
    else if 0 ≤ itimediff q.seqid (shardBegin n seqid) then do
      let a ← a.add n i q
      assemble n seqid rx count (i + 1) a
    else assemble n seqid rx count (i + 1) a

/-! ## Reconstruction -/

/-- One shard cut or grown to `maxlen` bytes, the new part zeroed. -/
def padShard (zeros : Bytes) (maxlen : Nat) : Option (Slice UInt8) → Go (Option (Slice UInt8))
  | none => pure none
  | some s => do
    let t ← s.upto maxlen >>= fun t => t.copyRange s.len maxlen zeros
    pure (some t)

/-- Every shard that is there, padded to `maxlen`. -/
def padShards (zeros : Bytes) (maxlen : Nat) :
    List (Option (Slice UInt8)) → Go (List (Option (Slice UInt8)))
  | [] => pure []
  | s :: shards => do
    let s ← padShard zeros maxlen s
    let shards ← padShards zeros maxlen shards
    pure (s :: shards)

/-- The shards of the indices `ks` whose flag is not set. -/
def collectMissing (shardsflag : List Bool) (shards : List (Option Bytes)) :
    List Nat → Go (List Bytes)
  | [] => pure []
  | k :: ks => do
    let flag ← index shardsflag k
    let rest ← collectMissing shardsflag shards ks
    pure (if flag then rest else (shards[k]?.join.getD []) :: rest)

/-- Every index of `is` is one of `q`. -/
def touch (q : List FecPacket) : List Nat → Go Unit
  | [] => pure ()
  | i :: is => do
    let _ ← index q i
    touch q is

/-- `freeRange`: the queue without its `n` packets from `first` on. -/
def freeRange (first n : Nat) (q : List FecPacket) : Go (List FecPacket) := do
  touch q (List.range' first n) -- free
  let tail ← sliceFrom q (first + n)
  let q := overwrite q first tail
  touch q ((List.range n).map (q.length - 1 - ·)) -- dereference data
  sliceRange q 0 (q.length - n)

/-- The recovered data shards of a block with a lost data shard. -/
def FecDecoder.recoverShards (dec : FecDecoder) (a : Assembly) : Go (List Bytes) := do
  let shards ← padShards dec.zeros a.maxlen a.shards
  match dec.codec.reconstructData (shards.map (Option.map Slice.data)) with
  | some out => do
    let _ ← sliceRange shards 0 dec.dataShards
    collectMissing a.shardsflag out (List.range dec.dataShards)
  | none => pure []

/-- The shards gathered for the block of `seqid`, inserted at `insertIdx` of `rx`, if the search
range is long enough for a block. -/
def FecDecoder.gather (dec : FecDecoder) (seqid : UInt32) (insertIdx : Nat)
    (rx : List FecPacket) : Go (Option Assembly) :=
  let n := UInt32.ofNat dec.shardSize
  let sb := searchBegin n seqid insertIdx
  let se := searchEnd dec.shardSize sb rx.length
  if se + 1 - sb ≥ dec.dataShards then do
    let a ← assemble n seqid rx (se + 1 - sb) sb (Assembly.init dec.shardSize)
    pure (some a)
  else pure none

/-- The re-construction of data shards after `seqid` was inserted at `insertIdx` of `rx`: the
recovered shards and the queue. -/
def FecDecoder.reconstruct (dec : FecDecoder) (seqid : UInt32) (insertIdx : Nat)
    (rx : List FecPacket) : Go (List Bytes × List FecPacket) := do
  match ← dec.gather seqid insertIdx rx with
  | some a =>
    if a.numDataShard = dec.dataShards then do
      -- case 1: no lost data shards
      let rx ← freeRange a.first a.numshard rx
      pure ([], rx)
    else if a.numshard ≥ dec.dataShards then do
      -- case 2: data shard lost, but recoverable from parity shard
      let recovered ← dec.recoverShards a
      let rx ← freeRange a.first a.numshard rx
      pure (recovered, rx)
    else pure ([], rx)
  | none => pure ([], rx)

/-- Keep `rxlimit`. -/
def FecDecoder.keepLimit (dec : FecDecoder) (rx : List FecPacket) : Go (List FecPacket) :=
  if rx.length > dec.rxlimit then do
    let _ ← index rx 0
    freeRange 0 1 rx
  else pure rx

/-- `FecDecoder.Decode`: the recovered data shards, and the decoder after it. -/
def FecDecoder.decode (dec : FecDecoder) (pkt : FecPacket) : Go (List Bytes × FecDecoder) := do
  match ← insertionIndex dec.rx pkt.seqid dec.rx.length with
  | none => pure ([], dec)
  | some insertIdx => do
    let rx ← insertRx dec.rx insertIdx pkt
    let (recovered, rx) ← dec.reconstruct pkt.seqid insertIdx rx
    let rx ← dec.keepLimit rx
    pure (recovered, { dec with rx })

/-- The shards that `decode` passes to `ReconstructData`, `none` if it does not call it. -/
def FecDecoder.reconstructArg (dec : FecDecoder) (pkt : FecPacket) :
    Go (Option (List (Option Bytes))) := do
  match ← insertionIndex dec.rx pkt.seqid dec.rx.length with
  | none => pure none
  | some insertIdx => do
    let rx ← insertRx dec.rx insertIdx pkt
    match ← dec.gather pkt.seqid insertIdx rx with
    | some a =>
      if a.numDataShard = dec.dataShards then pure none
      else if a.numshard ≥ dec.dataShards then do
        let shards ← padShards dec.zeros a.maxlen a.shards
        pure (some (shards.map (Option.map Slice.data)))
      else pure none
    | none => pure none

end Faketcp
