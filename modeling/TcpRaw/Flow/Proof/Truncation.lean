import TcpRaw.Flow.Client
import TcpRaw.Flow.Datagram

/-!
# Truncated datagrams

A datagram that does not fit the buffer of the capture goroutine loses its end, in both modes of
reading: what is left of the segment is the part of it in the buffer, without the IPv4 header
(`read_eq`), and of its payload the part behind both headers (`captureDatagram_eq`). The test of
`decodeTCPPacket` compares the length of that payload with the length of the buffer, which also
holds the headers; it never fires (`payload_lt`). So `delivered_whole_iff`: what is delivered of a
datagram that fits is its whole payload, and a datagram that does not fit is delivered cut off.
-/

namespace Tcpraw

open GoRt

/-! ## Reading -/

theorem byteAt_append_left {b rest : Bytes} {i : Nat} (h : i < b.length) :
    byteAt (b ++ rest) i = byteAt b i := by
  simp [byteAt, List.getD_eq_getElem?_getD, List.getElem?_append_left h]

theorem byteAt_take {b : Bytes} {n i : Nat} (h : i < n) : byteAt (b.take n) i = byteAt b i := by
  simp [byteAt, List.getD_eq_getElem?_getD, h]

theorem beUint16At_take {b : Bytes} {n i : Nat} (h : i + 1 < n) :
    beUint16At (b.take n) i = beUint16At b i := by
  rw [beUint16At, byteAt_take (by omega), byteAt_take h]
  rfl

theorem beUint32At_take {b : Bytes} {n i : Nat} (h : i + 3 < n) :
    beUint32At (b.take n) i = beUint32At b i := by
  rw [beUint32At, byteAt_take (by omega), byteAt_take (by omega), byteAt_take (by omega),
    byteAt_take h]
  rfl

theorem length_receive (buf d : Bytes) : (receive buf d).2.length = buf.length := by
  simp only [receive, List.length_append, List.length_take, List.length_drop]
  omega

theorem take_receive (buf d : Bytes) :
    (receive buf d).2.take (receive buf d).1 = d.take buf.length :=
  List.take_left' (List.length_take ..)

section
variable {buf : Bytes} {d : TcpDatagram} (h : ihl d.bytes ≤ buf.length)
include h

theorem byteAt_receive : byteAt (receive buf d.bytes).2 0 = byteAt d.bytes 0 := by
  have hge := d.ihl_ge
  have hle := d.ihl_le
  rw [receive, byteAt_append_left (by rw [List.length_take]; omega), byteAt_take (by omega)]

theorem ihl_receive : ihl (receive buf d.bytes).2 = ihl d.bytes := by
  rw [ihl, byteAt_receive h, ihl]

theorem readBatch_eq :
    readBatch buf d.bytes = .ok (some ((d.bytes.take buf.length).drop (ihl d.bytes))) := by
  have hge := d.ihl_ge
  have hle := d.ihl_le
  have hlen : getIPv4HeaderLen (receive buf d.bytes).2 = ihl d.bytes := by
    unfold getIPv4HeaderLen
    rw [length_receive, ihl_receive h, byteAt_receive h, if_neg (by omega),
      if_neg (not_not_intro d.version), if_neg (by omega)]
  have hn : ihl d.bytes ≤ (receive buf d.bytes).1 := Nat.le_min.2 ⟨h, hle⟩
  have hmax : (receive buf d.bytes).1 ≤ (receive buf d.bytes).2.length := by
    rw [length_receive]
    exact Nat.min_le_left _ _
  unfold readBatch
  dsimp only
  rw [hlen, if_neg (by omega), sliceRange_ok hn hmax, ok_bind, take_receive]
  rfl

theorem readFromIP_eq :
    readFromIP buf d.bytes = .ok ((d.bytes.take buf.length).drop (ihl d.bytes)) := by
  have hge := d.ihl_ge
  have hle := d.ihl_le
  have hn : ihl d.bytes ≤ (receive buf d.bytes).1 := Nat.le_min.2 ⟨h, hle⟩
  have hmax : (receive buf d.bytes).1 ≤ buf.length := Nat.min_le_left _ _
  have hstrip : stripIPv4Header (receive buf d.bytes).1 (receive buf d.bytes).2 =
      (((((receive buf d.bytes).1 - ihl d.bytes) : Nat) : Int),
        (receive buf d.bytes).2.drop (ihl d.bytes) ++
          (receive buf d.bytes).2.drop (buf.length - ihl d.bytes)) := by
    unfold stripIPv4Header
    rw [length_receive, ihl_receive h, byteAt_receive h, if_neg (by omega), if_neg (by omega),
      if_neg (not_not_intro d.version), Int.ofNat_sub hn]
  unfold readFromIP
  dsimp only
  rw [hstrip]
  dsimp only
  have hlen : ((receive buf d.bytes).2.drop (ihl d.bytes)).length = buf.length - ihl d.bytes := by
    rw [List.length_drop, length_receive]
  rw [if_neg (by omega), Int.toNat_natCast, sliceRange_ok (Nat.zero_le _) (by
      rw [List.length_append, hlen]; omega), List.drop_zero,
    List.take_append_of_le_length (by rw [hlen]; omega), ← List.drop_take, take_receive]

/-- **Both modes of reading** leave what is in the buffer, without the IPv4 header. -/
theorem read_eq (cfg : CaptureConfig) :
    cfg.read buf d.bytes = .ok (some (d.segment.take (buf.length - ihl d.bytes))) := by
  have hseg : d.segment.take (buf.length - ihl d.bytes) =
      (d.bytes.take buf.length).drop (ihl d.bytes) := List.drop_take.symm
  unfold CaptureConfig.read
  rw [hseg]
  split
  · exact readBatch_eq h
  · rw [readFromIP_eq h]
    rfl

end

/-! ## Decoding -/

/-- The fields of the segment, and its complete payload. -/
def TcpDatagram.fields (d : TcpDatagram) : Segment := headerFields d.segment

/-- A decoder that finds no layer where the header is cut short. -/
def decodeWhole (b : Bytes) : Option Segment :=
  if HeaderWhole b then some (headerFields b) else none

theorem decodeWhole_headers : DecodesHeaders decodeWhole := fun _ h => if_pos h

/-- **A segment that is cut behind its header** has the fields of the whole one, and less
payload. -/
theorem DecodesHeaders.take {decode : Bytes → Option Segment} (hdec : DecodesHeaders decode)
    (d : TcpDatagram) {n : Nat} (h : dataStart d.segment ≤ n) :
    decode (d.segment.take n) =
      some { d.fields with payload := d.payload.take (n - dataStart d.segment) } := by
  obtain ⟨hlen, hge, hle⟩ := d.tcp
  change 20 ≤ d.segment.length at hlen
  change 20 ≤ dataStart d.segment at hge
  change dataStart d.segment ≤ d.segment.length at hle
  have hstart : dataStart (d.segment.take n) = dataStart d.segment := by
    rw [dataStart, byteAt_take (by omega)]
    rfl
  have hwhole : HeaderWhole (d.segment.take n) := by
    unfold HeaderWhole
    rw [hstart, List.length_take]
    omega
  rw [hdec _ hwhole, headerFields, hstart, beUint16At_take (by omega), beUint16At_take (by omega),
    beUint32At_take (by omega), beUint32At_take (by omega), byteAt_take (by omega), List.drop_take]
  rfl

section
variable {conn : TcpConn} {cfg : CaptureConfig} {decode : Bytes → Option Segment} {a : Arrived}
  {buf : Bytes} {d : TcpDatagram}

theorem TcpConn.chMessage_lockflow (conn : TcpConn) (key : AddrKey) (now : Time) :
    (conn.lockflow key now).2.chMessage = conn.chMessage :=
  (conn.lockflow_cases key now).2.2

theorem decodeSegment_message {max : Nat} {port : UInt16} {handle : Nat} {ip : UInt32}
    {tcp : Segment} {now : Time} {m : Message}
    (h : (conn.decodeSegment max port handle ip tcp now).2.chMessage = conn.chMessage ++ [m]) :
    m.bts = tcp.payload := by
  have hkeep : ∀ {l : List Message}, l = conn.chMessage → l ≠ conn.chMessage ++ [m] := by
    intro l hl heq
    have hlen := congrArg List.length (hl.symm.trans heq)
    rw [List.length_append, List.length_singleton] at hlen
    omega
  have hlock := conn.chMessage_lockflow { dip := ip, dport := tcp.srcPort } now
  unfold TcpConn.decodeSegment at h
  split at h
  · exact absurd h (hkeep rfl)
  dsimp only at h
  split at h
  · exact absurd h (hkeep hlock)
  split at h
  · exact absurd h (hkeep hlock)
  split at h
  · exact absurd h (hkeep hlock)
  split at h
  · exact absurd h (hkeep hlock)
  · change (conn.lockflow _ now).2.chMessage ++ [_] = _ at h
    rw [hlock] at h
    exact congrArg Message.bts (List.singleton_inj.1 (List.append_cancel_left h)).symm

/-- A segment for the port with PSH, of a flow that is bound to a kernel connection, is pushed. -/
theorem decodeSegment_pushes {max e : Nat} {port : UInt16} {handle : Nat} {ip : UInt32}
    {tcp : Segment} {now : Time} {k : AddrKey} {flow : TcpFlow} (hport : tcp.dstPort = port)
    (hpsh : tcp.PSH = true)
    (he : conn.table.lookup { dip := ip, dport := tcp.srcPort } = some e)
    (hf : conn.flows[e]? = some (k, flow)) (hconn : flow.conn ≠ none)
    (hroom : conn.chMessage.length < chMessageCap) (hp : tcp.payload.length < max) :
    ∃ conn' m, conn.decodeSegment max port handle ip tcp now = (.pushed, conn') ∧
      conn'.chMessage = conn.chMessage ++ [m] ∧ m.bts = tcp.payload := by
  have hlock : conn.lockflow { dip := ip, dport := tcp.srcPort } now =
      (e, { conn with table := conn.table.store { dip := ip, dport := tcp.srcPort } e }) := by
    unfold TcpConn.lockflow
    rw [he]
  have horphan : TcpConn.orphan
      { conn with table := conn.table.store { dip := ip, dport := tcp.srcPort } e } e = false := by
    unfold TcpConn.orphan
    dsimp only
    rw [hf]
    exact Option.isNone_eq_false_iff.2 (Option.isSome_iff_ne_none.2 hconn)
  unfold TcpConn.decodeSegment
  rw [if_neg (not_not_intro hport)]
  dsimp only
  rw [hlock]
  dsimp only
  rw [horphan, if_neg Bool.false_ne_true, hpsh, if_neg (by decide), if_neg (by omega)]
  rw [TcpConn.modifyFlow, if_neg (Nat.not_le.2 hroom)]
  exact ⟨_, _, rfl, rfl, rfl⟩

/-- The segment is for the port and has PSH, its flow is bound to a kernel connection, and
`chMessage` has room. -/
structure Deliverable (conn : TcpConn) (a : Arrived) (d : TcpDatagram) : Prop where
  port : d.fields.dstPort = a.port
  psh : d.fields.PSH = true
  bound : ∃ e k flow, conn.table.lookup { dip := a.ip, dport := d.fields.srcPort } = some e ∧
    conn.flows[e]? = some (k, flow) ∧ flow.conn ≠ none
  room : conn.chMessage.length < chMessageCap

/-- **A deliverable segment is delivered**, with whatever payload is left of it. -/
theorem decodeSegment_delivers (h : Deliverable conn a d) {max : Nat} {p : Bytes}
    (hp : p.length < max) :
    ∃ conn' m, conn.decodeSegment max a.port a.handle a.ip { d.fields with payload := p } a.now =
        (.pushed, conn') ∧ conn'.chMessage = conn.chMessage ++ [m] ∧ m.bts = p := by
  obtain ⟨e, k, flow, he, hf, hconn⟩ := h.bound
  exact decodeSegment_pushes h.port h.psh he hf hconn h.room hp

theorem payload_length (d : TcpDatagram) : d.payload.length = d.bytes.length - d.headers := by
  rw [TcpDatagram.payload, TcpDatagram.segment, List.length_drop, List.length_drop, Nat.sub_sub]
  rfl

theorem headers_ge (d : TcpDatagram) : 40 ≤ d.headers := by
  have h₁ := d.ihl_ge
  have h₂ : 20 ≤ dataStart d.segment := d.tcp.2.1
  unfold TcpDatagram.headers
  omega

theorem headers_le (d : TcpDatagram) : d.headers ≤ d.bytes.length := by
  have h₁ := d.ihl_le
  have h₂ : dataStart d.segment ≤ d.segment.length := d.tcp.2.2
  have hlen : d.segment.length = d.bytes.length - ihl d.bytes := List.length_drop
  unfold TcpDatagram.headers
  omega

/-- The payload in a buffer is shorter than the buffer: the headers are there too. -/
theorem payload_lt (hbuf : buf.length = cfg.bufLen) (h : d.headers ≤ buf.length) :
    (d.payload.take (buf.length - d.headers)).length < cfg.maxPayloadSize := by
  have hge := headers_ge d
  have hmax : buf.length ≤ cfg.maxPayloadSize := by
    rw [hbuf, CaptureConfig.bufLen]
    split
    · exact Nat.le_refl _
    · exact Nat.zero_le _
  rw [List.length_take]
  omega

/-- **A captured datagram whose headers are in the buffer**: its segment, with what the buffer holds
of the payload. -/
theorem captureDatagram_eq (conn : TcpConn) (hdec : DecodesHeaders decode) (a : Arrived)
    (hbuf : buf.length = cfg.bufLen) (h : d.headers ≤ buf.length) :
    ∃ r, conn.captureDatagram cfg decode a buf d.bytes = .ok (some r) ∧
      r = conn.decodeSegment cfg.maxPayloadSize a.port a.handle a.ip
        { d.fields with payload := d.payload.take (buf.length - d.headers) } a.now := by
  have hih : ihl d.bytes ≤ buf.length := by
    unfold TcpDatagram.headers at h
    omega
  have hstart : dataStart d.segment ≤ buf.length - ihl d.bytes := by
    unfold TcpDatagram.headers at h
    omega
  have hlayer := hdec.take d hstart
  rw [Nat.sub_sub, ← TcpDatagram.headers] at hlayer
  refine ⟨_, ?_, rfl⟩
  unfold TcpConn.captureDatagram
  rw [read_eq hih cfg, ok_bind]
  dsimp only
  rw [hlayer]
  dsimp only
  rw [if_neg]
  · rfl
  · -- the test of the payload's length does not fire
    have hlt := payload_lt hbuf h
    unfold TcpConn.decodeSegment
    split
    · exact nofun
    dsimp only
    split
    · exact nofun
    split
    · exact nofun
    split
    · omega
    split
    · exact nofun
    · exact nofun

/-- What is delivered of the datagram is its complete payload, and the datagram was all in the
buffer. -/
def DeliveredWhole (conn : TcpConn) (cfg : CaptureConfig) (decode : Bytes → Option Segment)
    (a : Arrived) (buf : Bytes) (d : TcpDatagram) : Prop :=
  ∀ m, conn.Delivers cfg decode a buf d.bytes m → m.bts = d.payload ∧ d.bytes.length ≤ buf.length

theorem deliveredWhole_of_fits (hdec : DecodesHeaders decode) (hbuf : buf.length = cfg.bufLen)
    (h : d.bytes.length ≤ buf.length) : DeliveredWhole conn cfg decode a buf d := by
  rintro m ⟨r, hr, hm⟩
  have hle := headers_le d
  obtain ⟨r', hr', heq⟩ := captureDatagram_eq conn hdec a hbuf (Nat.le_trans hle h)
  rw [hr] at hr'
  cases hr'
  rw [heq] at hm
  refine ⟨?_, h⟩
  rw [decodeSegment_message hm]
  exact List.take_of_length_le (by rw [payload_length]; omega)

/-- **No truncated payload is delivered, exactly of datagrams that fit the buffer.** For every
`MaxPayloadSize`, with and without batches, every datagram with headers of any lengths, and whatever
is left in the buffer: a datagram that fits is decoded without a panic and what is delivered of it
is its complete payload. A deliverable datagram with its headers in the buffer is delivered whole if
and only if it fits. -/
theorem delivered_whole_iff (conn : TcpConn) (cfg : CaptureConfig)
    (decode : Bytes → Option Segment) (hdec : DecodesHeaders decode) (a : Arrived) (buf : Bytes)
    (hbuf : buf.length = cfg.bufLen) (d : TcpDatagram) :
    (d.bytes.length ≤ buf.length → Returns (conn.captureDatagram cfg decode a buf d.bytes) ∧
      DeliveredWhole conn cfg decode a buf d) ∧
    (Deliverable conn a d → d.headers ≤ buf.length →
      (DeliveredWhole conn cfg decode a buf d ↔ d.bytes.length ≤ buf.length)) := by
  constructor
  · intro hfits
    obtain ⟨r, hr, -⟩ := captureDatagram_eq conn hdec a hbuf (Nat.le_trans (headers_le d) hfits)
    exact ⟨⟨_, hr⟩, deliveredWhole_of_fits hdec hbuf hfits⟩
  · intro hdel hheaders
    refine ⟨fun hwhole => ?_, deliveredWhole_of_fits hdec hbuf⟩
    obtain ⟨r, hr, heq⟩ := captureDatagram_eq conn hdec a hbuf hheaders
    obtain ⟨conn', m, hpush, hm, -⟩ := decodeSegment_delivers hdel (payload_lt hbuf hheaders)
    rw [hpush] at heq
    exact (hwhole m ⟨r, hr, by rw [heq]; exact hm⟩).2

end

/-- A datagram from 10.0.0.2:80 to port 40000, with PSH and a payload of 30 bytes. -/
def bytes70 : Bytes :=
  [0x45, 0, 0, 70, 0, 0, 0, 0, 64, 6, 0, 0, 10, 0, 0, 2, 10, 0, 0, 1] ++
    [0, 80, 0x9c, 0x40, 0, 0, 0, 1, 0, 0, 0, 1, 0x50, 0x18, 0, 0, 0, 0, 0, 0] ++
    List.replicate 30 7

theorem bytes70_ip : byteAt bytes70 0 >>> 4 = 4 ∧ 20 ≤ ihl bytes70 ∧
    ihl bytes70 ≤ bytes70.length := by
  decide

theorem bytes70_tcp : HeaderWhole (bytes70.drop (ihl bytes70)) := by decide

def datagram70 : TcpDatagram where
  bytes := bytes70
  version := bytes70_ip.1
  ihl_ge := bytes70_ip.2.1
  ihl_le := bytes70_ip.2.2
  tcp := bytes70_tcp

/-- A dialed `tcpConn` of that peer. -/
def dialed70 : TcpConn :=
  Client.dial { lport := 40000, remote := ⟨0x0a000002, 80⟩, tcpconn := 1, handle := 0 } 0

/-- Its capture goroutine. -/
def arrived70 : Arrived := { port := 40000, handle := 0, ip := 0x0a000002, now := 1 }

/-- In a buffer of 70 bytes the datagram is delivered whole, in one of 69 it is not. -/
theorem delivered_whole_70 :
    DeliveredWhole dialed70 ⟨true, 4, 70⟩ decodeWhole arrived70 (List.replicate 70 0) datagram70 ∧
      ¬ DeliveredWhole dialed70 ⟨true, 4, 69⟩ decodeWhole arrived70 (List.replicate 69 0)
        datagram70 := by
  have hdel : Deliverable dialed70 arrived70 datagram70 :=
    ⟨by decide +kernel, by decide +kernel, ⟨0, ⟨0x0a000002, 80⟩, ⟨some 1, none, 0, 0, 0⟩,
      by decide +kernel, by decide +kernel, by decide⟩, by decide +kernel⟩
  have h70 := (delivered_whole_iff dialed70 ⟨true, 4, 70⟩ decodeWhole decodeWhole_headers arrived70
    (List.replicate 70 0) (by decide +kernel) datagram70).2 hdel (by decide +kernel)
  have h69 := (delivered_whole_iff dialed70 ⟨true, 4, 69⟩ decodeWhole decodeWhole_headers arrived70
    (List.replicate 69 0) (by decide +kernel) datagram70).2 hdel (by decide +kernel)
  exact ⟨h70.2 (by decide +kernel), fun hwhole => absurd (h69.1 hwhole) (by decide +kernel)⟩

/-- **A truncated payload is delivered.** With `MaxPayloadSize` 60 a datagram of 70 bytes is cut in
the buffer, in both modes of reading, and the first 20 bytes of its payload of 30 are delivered. -/
theorem truncated_delivered :
    datagram70.payload = List.replicate 30 7 ∧
      (∃ m, dialed70.Delivers ⟨true, 4, 60⟩ decodeWhole arrived70 (List.replicate 60 0)
        datagram70.bytes m ∧ m.bts = List.replicate 20 7) ∧
      ∃ m, dialed70.Delivers ⟨true, 1, 60⟩ decodeWhole arrived70 (List.replicate 60 0)
        datagram70.bytes m ∧ m.bts = List.replicate 20 7 := by
  have hrun : ∀ batchSize ∈ [(4 : Int), 1],
      (dialed70.captureDatagram ⟨true, batchSize, 60⟩ decodeWhole arrived70
          (List.replicate 60 0) datagram70.bytes).toOption.join.map (fun r => r.2.chMessage) =
        some [⟨List.replicate 20 7, ⟨0x0a000002, 80⟩⟩] := by decide +kernel
  have hdeliver : ∀ batchSize ∈ [(4 : Int), 1], ∃ m,
      dialed70.Delivers ⟨true, batchSize, 60⟩ decodeWhole arrived70 (List.replicate 60 0)
        datagram70.bytes m ∧ m.bts = List.replicate 20 7 := by
    intro batchSize hb
    obtain ⟨r, hr, hm⟩ := Option.map_eq_some_iff.1 (hrun batchSize hb)
    exact ⟨_, ⟨r, ok_of_toOption (Option.join_eq_some_iff.1 hr), hm⟩, rfl⟩
  exact ⟨by decide +kernel, hdeliver 4 (by decide), hdeliver 1 (by decide)⟩

end Tcpraw
