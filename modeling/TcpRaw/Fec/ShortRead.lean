import TcpRaw.Fec.Client
import TcpRaw.Fec.Stream

/-!
# Short reads (`faketcp/client.go`, `Client.Read`)

`Read` gives `ReadFrom` a buffer of `len(b) + FecHeaderSizePlus2` bytes. If `b` is short, the end of
the message is lost, and what is left of its shard goes to the decoder, which may restore other
packets of the block from it. `Twin` puts a client next to one that makes the same calls with room
for every message.

`FecDecoder.Covers` is about one packet, in the state before it is decoded: each payload that it
makes the decoder restore lies within what was read of each packet of the block. `Fec.decodings` are
the packets that a call decodes; `Twin.CarefullyReachable` are the states of the runs in which it
covers them all.
-/

namespace Faketcp

open GoRt

/-! ## What a packet is restored from -/

/-- The length of shard `j` of a block, as it is sent. -/
def shardLen (d : Nat) (blk : List Bytes) (j : Nat) : Nat :=
  if j < d then (blk[j]?.getD []).length + 2 else blockLen blk

/-- The packet `q` of the block `blk` was read whole, or into a buffer (not an empty one) that has
room for the payload `b`. -/
def Reaches (d p : Nat) (blk : List Bytes) (b : Bytes) (q : FecPacket) : Prop :=
  q.data.len = shardLen d blk (q.seqid.toNat % (d + p)) ∨ 2 < q.data.len ∧ b.length + 2 ≤ q.data.len

instance decidableReaches (d p : Nat) (blk : List Bytes) (b : Bytes) (q : FecPacket) :
    Decidable (Reaches d p blk b q) :=
  inferInstanceAs (Decidable (_ ∨ _))

/-- The packets of the block of `pkt` that the decoder has, with `pkt`. -/
def blockmates (n : Nat) (rx : List FecPacket) (pkt : FecPacket) : List FecPacket :=
  pkt :: rx.filter fun q => q.seqid.toNat / n = pkt.seqid.toNat / n

/-- If `pkt` is new and completes `d` packets of its block, then each of them reaches each payload
whose data packet is not one of them. -/
def FecDecoder.Covers (d p : Nat) (ps : List Bytes) (dec : FecDecoder) (pkt : FecPacket) : Prop :=
  (∀ q ∈ dec.rx, q.seqid ≠ pkt.seqid) → d ≤ (blockmates (d + p) dec.rx pkt).length →
    ∀ k < d, (∀ q ∈ blockmates (d + p) dec.rx pkt, q.seqid.toNat % (d + p) ≠ k) →
      ∀ q ∈ blockmates (d + p) dec.rx pkt,
        Reaches d p (blockOf d (pkt.seqid.toNat / (d + p)) ps)
          ((blockOf d (pkt.seqid.toNat / (d + p)) ps)[k]?.getD []) q

instance FecDecoder.decidableCovers (d p : Nat) (ps : List Bytes) (dec : FecDecoder)
    (pkt : FecPacket) : Decidable (dec.Covers d p ps pkt) :=
  inferInstanceAs (Decidable ((_ → _ → _)))

/-- `pkt` is new and completes `d` packets of its block, but none of them goes to the end of some
payload whose data packet is not one of them, while there is more of them than the size bytes. -/
def FecDecoder.Starves (d p : Nat) (ps : List Bytes) (dec : FecDecoder) (pkt : FecPacket) : Prop :=
  (∀ q ∈ dec.rx, q.seqid ≠ pkt.seqid) ∧ d ≤ (blockmates (d + p) dec.rx pkt).length ∧
    ∃ k < d, (∀ q ∈ blockmates (d + p) dec.rx pkt, q.seqid.toNat % (d + p) ≠ k) ∧
      (∀ q ∈ blockmates (d + p) dec.rx pkt,
        q.data.len < ((blockOf d (pkt.seqid.toNat / (d + p)) ps)[k]?.getD []).length + 2) ∧
      ∃ q ∈ blockmates (d + p) dec.rx pkt, 2 < q.data.len

instance FecDecoder.decidableStarves (d p : Nat) (ps : List Bytes) (dec : FecDecoder)
    (pkt : FecPacket) : Decidable (dec.Starves d p ps pkt) :=
  inferInstanceAs (Decidable (_ ∧ _ ∧ _))

/-- `FecDecoder.Covers` for what was read of a message. -/
def Fec.Covers (d p : Nat) (ps : List Bytes) (fec : Fec) (a : Arrival) : Prop :=
  ∀ pkt, decodeFecPacket a.data a.buf = .ok pkt → fec.decoder.Covers d p ps pkt

theorem covers_iff {d p : Nat} {ps : List Bytes} {fec : Fec} {a : Arrival} :
    (∀ pkt ∈ (decodeFecPacket a.data a.buf).toOption, fec.decoder.Covers d p ps pkt) ↔
      fec.Covers d p ps a := by
  refine forall_congr' fun pkt => ?_
  cases decodeFecPacket a.data a.buf <;> simp [Except.toOption]

instance Fec.decidableCovers (d p : Nat) (ps : List Bytes) (fec : Fec) (a : Arrival) :
    Decidable (fec.Covers d p ps a) :=
  decidable_of_iff _ covers_iff

/-- `FecDecoder.Starves` for what was read of a message. -/
def Fec.Starves (d p : Nat) (ps : List Bytes) (fec : Fec) (a : Arrival) : Prop :=
  ∃ pkt, decodeFecPacket a.data a.buf = .ok pkt ∧ fec.decoder.Starves d p ps pkt

theorem starves_iff {d p : Nat} {ps : List Bytes} {fec : Fec} {a : Arrival} :
    (∃ pkt ∈ (decodeFecPacket a.data a.buf).toOption, fec.decoder.Starves d p ps pkt) ↔
      fec.Starves d p ps a := by
  refine exists_congr fun pkt => ?_
  cases decodeFecPacket a.data a.buf <;> simp [Except.toOption]

instance Fec.decidableStarves (d p : Nat) (ps : List Bytes) (fec : Fec) (a : Arrival) :
    Decidable (fec.Starves d p ps a) :=
  decidable_of_iff _ starves_iff

/-- The packets that a call of `DecodeData` decodes, each with the state before it is decoded. -/
def Fec.decodings : Fec → List Arrival → List (Fec × Arrival)
  | _, [] => []
  | fec, a :: arrivals =>
    if fec.dataCh = [] then
      if a.data.length = 0 then Fec.decodings fec arrivals
      else (fec, a) ::
        match fec.decode a with
        | .ok (none, fec) => Fec.decodings fec arrivals
        | _ => []
    else []

/-! ## A client and its twin -/

/-- A longer buffer, with room for every message. -/
def widen (b : Bytes) : Bytes := b ++ List.replicate mtuLimit 0

/-- The same step with a buffer that has room for every message. -/
def Reader.Event.widen : Reader.Event → Reader.Event
  | .arrive a => .arrive a
  | .read b => .read (Faketcp.widen b)

/-- A client, and one that makes the same calls with room for every message. -/
structure Twin where
  short : Reader
  ample : Reader

/-- Two new clients. -/
def Twin.new (fec : Fec) : Twin where
  short := { client := newClient (some fec), inbox := [], taken := [] }
  ample := { client := newClient (some fec), inbox := [], taken := [] }

/-- One step of both. -/
def Twin.step (t : Twin) (e : Reader.Event) : Go Twin := do
  let short ← t.short.step e
  let ample ← t.ample.step e.widen
  pure { short, ample }

/-- Only messages that were sent arrive. -/
def Twin.Possible (sent : List Bytes) : Reader.Event → Prop
  | .arrive a => a.data ∈ sent
  | .read _ => True

/-- A call that restores no payload from packets which were cut before its end. -/
def Twin.Careful (d p : Nat) (ps : List Bytes) (t : Twin) : Reader.Event → Prop
  | .arrive _ => True
  | .read b =>
    ∀ fec ∈ t.short.client.fec, ∀ x ∈ fec.decodings
      (t.short.inbox.map (Arrival.readFrom (b.length + fecHeaderSizePlus2))), x.1.Covers d p ps x.2

/-- A call whose first packet that is not covered starves. -/
def Twin.Starved (d p : Nat) (ps : List Bytes) (t : Twin) (b : Bytes) : Prop :=
  ∃ fec ∈ t.short.client.fec,
    ∃ x ∈ (fec.decodings
      (t.short.inbox.map (Arrival.readFrom (b.length + fecHeaderSizePlus2)))).find?
      (fun x => ¬ x.1.Covers d p ps x.2), x.1.Starves d p ps x.2

instance Twin.decidablePossible (sent : List Bytes) (e : Reader.Event) :
    Decidable (Twin.Possible sent e) :=
  match e with
  | .arrive a => inferInstanceAs (Decidable (a.data ∈ sent))
  | .read _ => inferInstanceAs (Decidable True)

instance Twin.decidableCareful (d p : Nat) (ps : List Bytes) (t : Twin) (e : Reader.Event) :
    Decidable (t.Careful d p ps e) :=
  match e with
  | .arrive _ => inferInstanceAs (Decidable True)
  | .read b => inferInstanceAs (Decidable (∀ fec ∈ t.short.client.fec, ∀ x ∈ fec.decodings
      (t.short.inbox.map (Arrival.readFrom (b.length + fecHeaderSizePlus2))),
        x.1.Covers d p ps x.2))

instance Twin.decidableStarved (d p : Nat) (ps : List Bytes) (t : Twin) (b : Bytes) :
    Decidable (t.Starved d p ps b) :=
  inferInstanceAs (Decidable (∃ fec ∈ t.short.client.fec,
    ∃ x ∈ (fec.decodings
      (t.short.inbox.map (Arrival.readFrom (b.length + fecHeaderSizePlus2)))).find?
      (fun x => ¬ x.1.Covers d p ps x.2), x.1.Starves d p ps x.2))

/-- A step of a run in which `sent` arrives and every call is careful. -/
def Twin.stepCarefully (d p : Nat) (ps sent : List Bytes) (t : Twin) (e : Reader.Event) :
    Option Twin :=
  if Twin.Possible sent e ∧ t.Careful d p ps e then (t.step e).toOption else none

/-- The states of these runs. -/
def Twin.CarefullyReachable (d p : Nat) (ps sent : List Bytes) (fec : Fec) : Twin → Prop :=
  Trans.Reach (· = Twin.new fec) fun t e t' => t.stepCarefully d p ps sent e = some t'

/-- The payloads that were restored and wait for the next calls of `Read`. -/
def Client.recovered (c : Client) : List Bytes :=
  match c.fec with
  | some fec => fec.dataCh
  | none => []

end Faketcp
