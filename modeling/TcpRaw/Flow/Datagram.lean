import TcpRaw.Flow.Conn

/-!
# Captured datagrams (`tcp_linux.go`, `captureFlow`, `getIPv4HeaderLen`)

A capture goroutine reads IPv4 datagrams from a raw socket into buffers of `MaxPayloadSize` bytes.
The kernel copies what fits and drops the rest. `ReadFromIP` strips the IPv4 header
(`stripIPv4Header` of Go's `net`); `ReadBatch` leaves it, and `captureFlow` strips it
(`getIPv4HeaderLen`). What is left is parsed as a TCP segment, and `decodeTCPPacket` puts the
payload of a segment with PSH on `chMessage`.

The parser is the one of the `gopacket` library, a parameter here (`decode`). What is assumed of it
is `DecodesHeaders`: nothing of a header that is cut short.
-/

namespace Tcpraw

open GoRt

/-- A byte of a buffer. -/
def byteAt (b : Bytes) (i : Nat) : UInt8 := b.getD i 0

/-- Two bytes in network order. -/
def beUint16At (b : Bytes) (i : Nat) : UInt16 :=
  UInt16.ofNat ((byteAt b i).toNat * 2 ^ 8 + (byteAt b (i + 1)).toNat)

/-- Four bytes in network order. -/
def beUint32At (b : Bytes) (i : Nat) : UInt32 :=
  UInt32.ofNat ((byteAt b i).toNat * 2 ^ 24 + (byteAt b (i + 1)).toNat * 2 ^ 16 +
    (byteAt b (i + 2)).toNat * 2 ^ 8 + (byteAt b (i + 3)).toNat)

/-! ## Reading -/

/-- What `captureFlow` depends on. -/
structure CaptureConfig where
  /-- It has an `ipv4.PacketConn`. -/
  pc : Bool
  /-- `BatchSize` -/
  batchSize : Int
  /-- `MaxPayloadSize` -/
  maxPayloadSize : Nat

/-- It reads with `ReadBatch`. -/
def CaptureConfig.batch (cfg : CaptureConfig) : Bool := cfg.pc && decide (2 ≤ cfg.batchSize)

/-- The length of the buffers it reads into. The one of `ReadFromIP` is allocated where
`BatchSize < 2` only. -/
def CaptureConfig.bufLen (cfg : CaptureConfig) : Nat :=
  if cfg.batch = true ∨ cfg.batchSize < 2 then cfg.maxPayloadSize else 0

/-- The kernel copies a datagram to a buffer: the number of bytes, and the buffer after it. -/
def receive (buf d : Bytes) : Nat × Bytes :=
  (min buf.length d.length, d.take buf.length ++ buf.drop d.length)

/-- The header length that the first byte of an IPv4 header holds. -/
def ihl (b : Bytes) : Nat := (byteAt b 0 &&& 0x0f).toNat <<< 2

/-- `getIPv4HeaderLen` -/
def getIPv4HeaderLen (b : Bytes) : Nat :=
  if b.length < 20 then 0
  else if byteAt b 0 >>> 4 ≠ 4 then 0
  else if 20 > ihl b ∨ ihl b > b.length then 0
  else ihl b

/-- `stripIPv4Header` of Go's `net`, of `n` bytes in the buffer `b`. -/
def stripIPv4Header (n : Int) (b : Bytes) : Int × Bytes :=
  if b.length < 20 then (n, b)
  else if 20 > ihl b ∨ ihl b > b.length then (n, b)
  else if byteAt b 0 >>> 4 ≠ 4 then (n, b)
  else (n - ihl b, b.drop (ihl b) ++ b.drop (b.length - ihl b))

/-- `ReadFromIP(buf)`, and `buf[:n]`. -/
def readFromIP (buf d : Bytes) : Go Bytes :=
  let r := receive buf d
  let s := stripIPv4Header r.1 r.2
  if s.1 < 0 then .error .sliceBounds else sliceRange s.2 0 s.1.toNat

/-- A message of `ReadBatch`, and `buf[iphlen:msg.N]`; `none` if it is skipped. -/
def readBatch (buf d : Bytes) : Go (Option Bytes) :=
  let r := receive buf d
  let iphlen := getIPv4HeaderLen r.2
  if iphlen = 0 then pure none
  else do
    let b ← sliceRange r.2 iphlen r.1
    pure (some b)

/-- What `captureFlow` passes to `decodeTCPPacket`. -/
def CaptureConfig.read (cfg : CaptureConfig) (buf d : Bytes) : Go (Option Bytes) :=
  if cfg.batch then readBatch buf d
  else do
    let b ← readFromIP buf d
    pure (some b)

/-! ## Decoding -/

/-- The length of the TCP header, its options included. -/
def dataStart (b : Bytes) : Nat := (byteAt b 12 >>> 4).toNat * 4

/-- The TCP header is all there. -/
def HeaderWhole (b : Bytes) : Prop := 20 ≤ b.length ∧ 20 ≤ dataStart b ∧ dataStart b ≤ b.length

instance (b : Bytes) : Decidable (HeaderWhole b) :=
  inferInstanceAs (Decidable (20 ≤ b.length ∧ 20 ≤ dataStart b ∧ dataStart b ≤ b.length))

/-- The fields of a TCP header, and the bytes behind it. -/
def headerFields (b : Bytes) : Segment where
  srcPort := beUint16At b 0
  dstPort := beUint16At b 2
  SYN := byteAt b 13 &&& 0x02 != 0
  ACK := byteAt b 13 &&& 0x10 != 0
  PSH := byteAt b 13 &&& 0x08 != 0
  seq := beUint32At b 4
  ack := beUint32At b 8
  payload := b.drop (dataStart b)

/-- What is assumed of `gopacket`: `decode b` is the TCP layer of `NewPacket(b, LayerTypeTCP)`, and
where the header is all there, the layer has its fields. -/
def DecodesHeaders (decode : Bytes → Option Segment) : Prop :=
  ∀ b, HeaderWhole b → decode b = some (headerFields b)

/-- Where and when a datagram is captured: the port that `captureFlow` was started with, its handle,
the datagram's source, and the time. -/
structure Arrived where
  port : UInt16
  handle : Nat
  ip : UInt32
  now : Time

/-- A datagram is captured: what becomes of it, and the `tcpConn` after it. `none` if it is
skipped. -/
def TcpConn.captureDatagram (conn : TcpConn) (cfg : CaptureConfig)
    (decode : Bytes → Option Segment) (a : Arrived) (buf d : Bytes) :
    Go (Option (Verdict × TcpConn)) := do
  match ← cfg.read buf d with
  | none => pure none
  | some b =>
    match decode b with
    | none => .error (.explicit "not TCP packet, never happen")
    | some tcp =>
      let r := conn.decodeSegment cfg.maxPayloadSize a.port a.handle a.ip tcp a.now
      if r.1 = .panicked then .error (.explicit "tcp payload len > MaxPayloadSize")
      else pure (some r)

/-- An IPv4 datagram that carries a TCP segment. -/
structure TcpDatagram where
  bytes : Bytes
  version : byteAt bytes 0 >>> 4 = 4
  ihl_ge : 20 ≤ ihl bytes
  ihl_le : ihl bytes ≤ bytes.length
  tcp : HeaderWhole (bytes.drop (ihl bytes))

/-- The TCP segment. -/
def TcpDatagram.segment (d : TcpDatagram) : Bytes := d.bytes.drop (ihl d.bytes)

/-- The length of both headers. -/
def TcpDatagram.headers (d : TcpDatagram) : Nat := ihl d.bytes + dataStart d.segment

/-- The complete TCP payload. -/
def TcpDatagram.payload (d : TcpDatagram) : Bytes := d.segment.drop (dataStart d.segment)

/-- A message is put on `chMessage` for the datagram. -/
def TcpConn.Delivers (conn : TcpConn) (cfg : CaptureConfig) (decode : Bytes → Option Segment)
    (a : Arrived) (buf d : Bytes) (m : Message) : Prop :=
  ∃ r, conn.captureDatagram cfg decode a buf d = .ok (some r) ∧
    r.2.chMessage = conn.chMessage ++ [m]

end Tcpraw
