import TcpRaw.Fec.Link
import TcpRaw.Fec.Stream

/-!
# What a block number stands for

On the wire a block has a number: its packets have the ids of one run of `d + p`. A new `Fec` of the
server starts with number 0 again, and so does an old one at the wrap of its ids; then the number is
handed over to another block, and nothing in a packet says so.

`Owned` is a link together with the block that each number stands for, which is the block of the
last packet with that number that the client's decoder took up. Its reads name the packet that they
read: a `Fec` of the server, counted from the first, and the packet's position in its stream.
`Handover` is the condition on the reads: where a number is handed over, the client's queue holds no
packet with it.
-/

namespace Faketcp

open GoRt Erasure

/-- The payloads of the `i`-th `Fec` of the server, counted from the first. -/
def Link.life (l : Link) (i : Nat) : Option (List Bytes) := l.lives.reverse[i]?

/-- The number of the block of packet `k` on the wire, for blocks of `n`. -/
def blockNumber (n k : Nat) : Nat := k % pawsOf n / n

/-- The de-duplicate step of the decoder drops packet `k`. -/
def Fec.drops (fec : Fec) (n k : Nat) : Bool :=
  match insertionIndex fec.decoder.rx (UInt32.ofNat (k % pawsOf n)) fec.decoder.rx.length with
  | .ok none => true
  | _ => false

/-- A link, and for each block number a life and the position of a block in it. -/
structure Owned where
  link : Link
  owner : Nat → Option (Nat × Nat)

/-- The events of a link, with the packet of each read. -/
inductive Owned.Event where
  | write (b : Bytes)
  | renew
  /-- The next message is packet `k` of life `i`. -/
  | read (a : Arrival) (i k : Nat)

/-- The event of the link. -/
def Owned.Event.plain : Owned.Event → Link.Event
  | .write b => .write b
  | .renew => .renew
  | .read a _ _ => .read a

/-- Packet `k` of life `i` may have its block number: no block has it, or its own, or no packet with
the number is queued; a packet that is dropped needs none. -/
def Owned.Free (o : Owned) (n i k : Nat) : Prop :=
  o.owner (blockNumber n k) = none ∨ o.owner (blockNumber n k) = some (i, k / n) ∨
    (∀ q ∈ o.link.client.decoder.rx, q.seqid.toNat / n ≠ blockNumber n k) ∨
    o.link.client.drops n k = true

instance (o : Owned) (n i k : Nat) : Decidable (o.Free n i k) :=
  inferInstanceAs (Decidable (_ ∨ _ ∨ _ ∨ _))

/-- The message that a read decodes is the packet that it names, and that may have its number. -/
def Owned.Handover (codec : Codec UInt8) (d p : Nat) (o : Owned) : Owned.Event → Prop
  | .read a i k => o.link.client.dataCh = [] →
    ((o.link.life i).bind fun ps => streamPacket codec d p ps k) = some a.data ∧ o.Free (d + p) i k
  | _ => True

instance (codec : Codec UInt8) (d p : Nat) (o : Owned) (e : Owned.Event) :
    Decidable (o.Handover codec d p e) :=
  match e with
  | .write _ | .renew => inferInstanceAs (Decidable True)
  | .read _ _ _ => inferInstanceAs (Decidable (_ → _ ∧ _))

/-- The owners after an event. -/
def Owned.handed (o : Owned) (n : Nat) : Owned.Event → Nat → Option (Nat × Nat)
  | .read _ i k => fun R =>
    if R = blockNumber n k ∧ o.link.client.dataCh = [] ∧ o.link.client.drops n k = false then
      some (i, k / n)
    else o.owner R
  | _ => o.owner

/-- A possible event that meets the condition, if it does not panic. -/
def Owned.step (rs : Nat → Nat → Option (Codec UInt8)) (codec : Codec UInt8) (d p : Nat) (o : Owned)
    (e : Owned.Event) : Option Owned :=
  if o.link.Possible e.plain ∧ o.Handover codec d p e then
    (o.link.step rs d p e.plain).toOption.map fun link => { link, owner := o.handed (d + p) e }
  else none

/-- No number stands for a block when a link starts. -/
def Owned.Start (rs : Nat → Nat → Option (Codec UInt8)) (d p : Nat) (o : Owned) : Prop :=
  Link.Start rs d p o.link ∧ ∀ R, o.owner R = none

end Faketcp
