import TcpRaw.Flow.Datagram
import TcpRaw.Flow.Write

/-!
# What `WriteTo` puts on the wire (`tcp_linux.go`, `fingerprints.go`)

`WriteTo` fills in the TCP header of its flow, stamps the options of the fingerprint (`makeOption`)
and has the `gopacket` library serialise header and payload with `FixLengths` and
`ComputeChecksums`; the kernel puts an IPv4 header in front of it. Every `tcpConn` has the
fingerprint `fingerPrintLinux`, and they all share its options: a call finds them as the last one
left them.

The serialiser is a parameter here (`serialize`), and what is assumed of it is `SerializesHeaders`.
-/

namespace Tcpraw

open GoRt

/-! ## Network order -/

/-- The two bytes of `v` in network order. -/
def beBytes16 (v : UInt16) : Bytes := [UInt8.ofNat (v.toNat / 2 ^ 8), UInt8.ofNat v.toNat]

/-- The four bytes of `v` in network order. -/
def beBytes32 (v : UInt32) : Bytes :=
  [UInt8.ofNat (v.toNat / 2 ^ 24), UInt8.ofNat (v.toNat / 2 ^ 16), UInt8.ofNat (v.toNat / 2 ^ 8),
    UInt8.ofNat v.toNat]

/-- `binary.BigEndian.PutUint32(b[i:], v)`, the buffer after it. -/
def bePutUint32 (b : Bytes) (i : Nat) (v : UInt32) : Go Bytes :=
  if i > b.length then .error .sliceBounds
  else if i + 4 ≤ b.length then .ok (overwrite b i (beBytes32 v)) else .error .indexOutOfRange

/-! ## Fingerprints -/

/-- `layers.TCPOption` -/
structure TCPOption where
  optionType : UInt8
  optionLength : UInt8
  optionData : Bytes
  deriving DecidableEq, Repr

/-- `FingerPrintType` -/
inductive FingerPrintType where
  | typeLinux
  deriving DecidableEq, Repr

/-- `fingerPrint` -/
structure FingerPrint where
  type : FingerPrintType
  window : UInt16
  options : List TCPOption
  deriving DecidableEq, Repr

def fingerPrintLinux : FingerPrint where
  type := .typeLinux
  window := 65535
  options := [⟨1, 0, []⟩, ⟨1, 0, []⟩, ⟨8, 10, List.replicate 10 0⟩]

/-- `makeOption`, at the time `now` in seconds: the options after it. -/
def makeOption (optType : FingerPrintType) (seed now : UInt32) (options : List TCPOption) :
    Go (List TCPOption) :=
  match optType with
  | .typeLinux => do
    let o ← index options 2
    let data ← bePutUint32 o.optionData 0 now
    let data ← bePutUint32 data 4 (seed + now)
    setIndex options 2 { o with optionData := data }

/-! ## Headers -/

/-- The bytes that an option takes in the header: its kind alone, or kind, length and data. -/
def TCPOption.size (o : TCPOption) : Nat :=
  if o.optionType = 0 ∨ o.optionType = 1 then 1 else o.optionData.length + 2

/-- The length of a header with these options, which are padded to a multiple of four bytes. -/
def headerLen (options : List TCPOption) : Nat :=
  20 + ((options.map TCPOption.size).sum + 3) / 4 * 4

/-- What is assumed of `gopacket`: `serialize window options tcp` are the bytes of
`SerializeLayers(buf, opts, &tcpHeader, Payload(p))`. Where the header is not too long for its
offset field, it has the length that the options give it, the offset says so, and its fields and
what is behind it are those of the segment. -/
structure SerializesHeaders (serialize : UInt16 → List TCPOption → Segment → Bytes) : Prop where
  length : ∀ window options tcp, headerLen options ≤ 60 →
    (serialize window options tcp).length = headerLen options + tcp.payload.length
  start : ∀ window options tcp, headerLen options ≤ 60 →
    dataStart (serialize window options tcp) = headerLen options
  fields : ∀ window options tcp, headerLen options ≤ 60 →
    headerFields (serialize window options tcp) = tcp

/-- The end of `WriteTo`, up to the raw socket: the options after it, and the bytes. -/
def FingerPrint.writeBytes (serialize : UInt16 → List TCPOption → Segment → Bytes)
    (fp : FingerPrint) (seed now : UInt32) (tcp : Segment) : Go (List TCPOption × Bytes) := do
  let options ← makeOption fp.type seed now fp.options
  pure (options, serialize fp.window options tcp)

/-- The IPv4 header that the kernel puts in front of a segment: with or without options, of a
datagram that is not a later fragment. -/
structure Ipv4Header where
  bytes : Bytes
  version : byteAt bytes 0 >>> 4 = 4
  ihl_eq : ihl bytes = bytes.length
  ihl_ge : 20 ≤ bytes.length
  protocol : byteAt bytes 9 = 6
  offset : beUint16At bytes 6 &&& 0x1fff = 0

end Tcpraw
