import TcpRaw.Fec.Decoder
import TcpRaw.Fec.Encoder

/-!
# The FEC layer (`faketcp/fec.go`, `Fec`)

`Fec.encodeData` sends a payload as a data packet, followed by the parity packets of the block it
completes; `Fec.decodeData` returns the next payload: a recovered one waiting in `dataCh`, else
that of the next packet `getData` returns. The packets `getData` returns are a list of arrivals,
each with the pool buffer it is copied into; after the last one `getData` fails.

`Fec.encodeCalls` and `Fec.decodeCalls` are runs of calls. A send call that fails ends its
`encodeData` call; the caller goes on with the next payload. `Wire` is the sender's side of a
network where any subset of the send calls fails.
-/

namespace Faketcp

open GoRt Erasure

/-- A `Fec`, whose encoder and decoder are not nil. -/
structure Fec where
  encoder : FecEncoder
  decoder : FecDecoder
  dataCh : List Bytes
  dataChCap : Nat
  txBytes : UInt64
  rxBytes : UInt64
  dropPackets : UInt64

/-- `NewFec`; `none` where the encoder or the decoder is nil. -/
def newFec (rs : Nat → Nat → Option (Codec UInt8)) (dataShards parityShards offset : Nat) :
    Option Fec := do
  let encoder ← newFECEncoder rs dataShards parityShards offset
  let decoder ← newFECDecoder rs (3 * (dataShards + parityShards)) dataShards parityShards
  pure
    { encoder, decoder
      dataCh := []
      dataChCap := dataShards + parityShards
      txBytes := 0
      rxBytes := 0
      dropPackets := 0 }

/-! ## Encoding -/

section
variable {σ ε : Type} (send : Bytes → σ → Option ε × σ)

/-- Send the parity packets in turn, up to the first error; `tx` counts the bytes sent. -/
def sendParity : List Bytes → UInt64 → σ → Option ε × UInt64 × σ
  | [], tx, s => (none, tx, s)
  | p :: ps, tx, s =>
    match send p s with
    | (some err, s) => (some err, tx, s)
    | (none, s) => sendParity ps (tx + UInt64.ofNat p.length) s

/-- `Fec.EncodeData` -/
def Fec.encodeData (fec : Fec) (b : Bytes) (s : σ) : Go (Option ε × Fec × σ) := do
  let fecBuf := Slice.ofList (List.replicate fecHeaderSizePlus2 0 ++ b)
  let (fecBuf, ps, encoder) ← fec.encoder.encode fecBuf
  let fec := { fec with encoder }
  match send fecBuf.data s with
  | (some err, s) => pure (some err, fec, s)
  | (none, s) =>
    let (err, txBytes, s) := sendParity send (ps.map Slice.data) fec.txBytes s
    pure (err, { fec with txBytes }, s)

/-- The calls of `EncodeData` with `payloads` in turn. -/
def Fec.encodeCalls : List Bytes → Fec → σ → Go (Fec × σ)
  | [], fec, s => pure (fec, s)
  | b :: payloads, fec, s => do
    let (_, fec, s) ← fec.encodeData send b s
    Fec.encodeCalls payloads fec s

end

/-- The sender's side of a network: `fails i` says whether the `i`-th send call fails, `sent`
holds the packets of the others. -/
structure Wire where
  fails : Nat → Bool
  calls : Nat
  sent : List Bytes

/-- No send call made yet. -/
def Wire.new (fails : Nat → Bool) : Wire := { fails, calls := 0, sent := [] }

/-- One send call. -/
def Wire.send (p : Bytes) (w : Wire) : Option Unit × Wire :=
  if w.fails w.calls then (some (), { w with calls := w.calls + 1 })
  else (none, { w with calls := w.calls + 1, sent := w.sent ++ [p] })

/-! ## Decoding -/

/-- A packet that `getData` returns, and the pool buffer it will be copied into. -/
structure Arrival where
  data : Bytes
  buf : PoolBuf

/-- Put the recovered data shards `rs` on `dataCh`, stripped of their size. -/
def Fec.pushRecovered : List Bytes → Fec → Go Fec
  | [], fec => pure fec
  | r :: rs, fec =>
    if r.length ≤ 2 then Fec.pushRecovered rs fec
    else do
      let sz ← leUint16 r
      if sz < 2 ∨ sz.toNat > r.length then
        .error (.explicit ("fec data invalid size:" ++ toString sz ++ ", len(r):"
          ++ toString r.length))
      else do
        let r ← sliceRange r 2 sz.toNat
        if fec.dataCh.length < fec.dataChCap then
          Fec.pushRecovered rs { fec with dataCh := fec.dataCh ++ [r] }
        else
          .error (.explicit ("fecDataCh is full, drop data len: " ++ toString r.length
            ++ ", fec dropPacket:" ++ toString (fec.dropPackets + 1)))

/-- The type switch of `Fec.decode`: the payload of a data packet, `none` for a parity packet. -/
def packetPayload (pkt : FecPacket) (data : Bytes) : Go (Option Bytes) :=
  if pkt.flag = typeData then do
    let payload ← sliceFrom data fecHeaderSizePlus2
    pure (some payload)
  else if pkt.flag ≠ typeFEC then
    .error (.explicit ("fecPacket.GetType():" ++ toString pkt.flag ++ ", TypeFEC:"
      ++ toString typeFEC))
  else pure none

/-- `Fec.decode` -/
def Fec.decode (fec : Fec) (a : Arrival) : Go (Option Bytes × Fec) := do
  let pkt ← decodeFecPacket a.data a.buf
  let data ← packetPayload pkt a.data
  let (recovered, decoder) ← fec.decoder.decode pkt
  let fec ← Fec.pushRecovered recovered { fec with decoder }
  pure (data, fec)

/-- `Fec.DecodeData`: the payload it returns, `none` if `getData` fails, and the arrivals left. -/
def Fec.decodeData : Fec → List Arrival → Go (Option Bytes × Fec × List Arrival)
  | fec, arrivals =>
    match fec.dataCh, arrivals with
    | data :: dataCh, arrivals =>
      pure (some data,
        { fec with dataCh, rxBytes := fec.rxBytes + UInt64.ofNat data.length }, arrivals)
    | [], [] => pure (none, fec, [])
    | [], a :: arrivals =>
      if a.data.length = 0 then Fec.decodeData fec arrivals
      else do
        let (data, fec) ← fec.decode a
        match data with
        | some data => pure (some data, fec, arrivals)
        | none => Fec.decodeData fec arrivals

/-- `n` calls of `DecodeData`, up to the first that fails: the payloads they return. -/
def Fec.decodeCalls : Nat → Fec → List Arrival → Go (List Bytes × Fec × List Arrival)
  | 0, fec, arrivals => pure ([], fec, arrivals)
  | n + 1, fec, arrivals => do
    let (data, fec, arrivals) ← fec.decodeData arrivals
    match data with
    | none => pure ([], fec, arrivals)
    | some data => do
      let (rest, fec, arrivals) ← Fec.decodeCalls n fec arrivals
      pure (data :: rest, fec, arrivals)

end Faketcp
