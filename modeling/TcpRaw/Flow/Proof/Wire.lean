import TcpRaw.Flow.Proof.Sockfilter
import TcpRaw.Flow.Proof.Truncation
import TcpRaw.Flow.Wire

/-!
# A segment is captured as it was written

`written_segment_captured` puts the header that the serialiser writes behind an IPv4 header and
between the two ends: the segment of a `WriteTo` passes the socket filter of its port, and only
that, and `captureFlow` decodes it to the same segment, whether it reads in batches or not.
`writeHeader` lays a header out as the TCP standard does, and so shows that the assumption on the
serialiser can be met.
-/

namespace Tcpraw

open GoRt

@[simp] theorem length_beBytes16 (v : UInt16) : (beBytes16 v).length = 2 := rfl

@[simp] theorem length_beBytes32 (v : UInt32) : (beBytes32 v).length = 4 := rfl

theorem bePutUint32_ok {b : Bytes} {i : Nat} (h : i + 4 ≤ b.length) (v : UInt32) :
    bePutUint32 b i v = .ok (overwrite b i (beBytes32 v)) := by
  rw [bePutUint32, if_neg (by omega), if_pos h]

/-! ## Options -/

/-- The options of `fingerPrintLinux`, after any number of stamps. -/
def Stamped (options : List TCPOption) : Prop :=
  ∃ data : Bytes, data.length = 10 ∧ options = [⟨1, 0, []⟩, ⟨1, 0, []⟩, ⟨8, 10, data⟩]

theorem stamped_linux : Stamped fingerPrintLinux.options := ⟨List.replicate 10 0, rfl, rfl⟩

/-- **A stamp** does not panic, and leaves options for the next one. -/
theorem makeOption_stamped {options : List TCPOption} (h : Stamped options) (seed now : UInt32) :
    ∃ options', makeOption .typeLinux seed now options = .ok options' ∧ Stamped options' := by
  obtain ⟨data, hlen, rfl⟩ := h
  have hdata : (overwrite data 0 (beBytes32 now)).length = 10 := by
    rw [length_overwrite (by simp [hlen]), hlen]
  refine ⟨[⟨1, 0, []⟩, ⟨1, 0, []⟩,
    ⟨8, 10, overwrite (overwrite data 0 (beBytes32 now)) 4 (beBytes32 (seed + now))⟩],
    ?_, _, ?_, rfl⟩
  · simp [makeOption, index, setIndex, bePutUint32_ok, hlen, hdata]
  · rw [length_overwrite (by simp [hdata]), hdata]

theorem headerLen_stamped {options : List TCPOption} (h : Stamped options) :
    headerLen options = 36 := by
  obtain ⟨data, hlen, rfl⟩ := h
  simp [headerLen, TCPOption.size, hlen]

/-! ## Headers -/

section
variable {serialize : UInt16 → List TCPOption → Segment → Bytes} {options : List TCPOption}

theorem SerializesHeaders.whole (hser : SerializesHeaders serialize) (window : UInt16)
    (tcp : Segment) (h : headerLen options ≤ 60) : HeaderWhole (serialize window options tcp) := by
  have hge : 20 ≤ headerLen options := Nat.le_add_right _ _
  unfold HeaderWhole
  rw [hser.start _ _ _ h, hser.length _ _ _ h]
  omega

end

/-! ## Datagrams -/

section
variable {ip : Ipv4Header} {wire : Bytes}

theorem Ipv4Header.ihl_append (ip : Ipv4Header) (wire : Bytes) :
    ihl (ip.bytes ++ wire) = ip.bytes.length := by
  have hge := ip.ihl_ge
  rw [ihl, byteAt_append_left (by omega)]
  exact ip.ihl_eq

theorem Ipv4Header.drop_append (ip : Ipv4Header) (wire : Bytes) :
    (ip.bytes ++ wire).drop (ihl (ip.bytes ++ wire)) = wire := by
  rw [ip.ihl_append, List.drop_left]

theorem Ipv4Header.version_append (ip : Ipv4Header) (wire : Bytes) :
    byteAt (ip.bytes ++ wire) 0 >>> 4 = 4 := by
  have hge := ip.ihl_ge
  rw [byteAt_append_left (by omega)]
  exact ip.version

theorem Ipv4Header.ihl_append_le (ip : Ipv4Header) (wire : Bytes) :
    ihl (ip.bytes ++ wire) ≤ (ip.bytes ++ wire).length := by
  rw [ip.ihl_append, List.length_append]
  omega

/-- A segment behind an IPv4 header. -/
def Ipv4Header.datagram (ip : Ipv4Header) (wire : Bytes) (h : HeaderWhole wire) : TcpDatagram where
  bytes := ip.bytes ++ wire
  version := ip.version_append wire
  ihl_ge := (ip.ihl_append wire).symm ▸ ip.ihl_ge
  ihl_le := ip.ihl_append_le wire
  tcp := (ip.drop_append wire).symm ▸ h

/-- A datagram that fits the buffer is captured with its fields and its payload. -/
theorem captureDatagram_fits {d : TcpDatagram} {cfg : CaptureConfig} (conn : TcpConn)
    {decode : Bytes → Option Segment} (hdec : DecodesHeaders decode) (a : Arrived) {buf : Bytes}
    (hbuf : buf.length = cfg.bufLen) (h : d.bytes.length ≤ buf.length) :
    conn.captureDatagram cfg decode a buf d.bytes =
      .ok (some (conn.decodeSegment cfg.maxPayloadSize a.port a.handle a.ip d.fields a.now)) := by
  have hle := headers_le d
  have hall : d.payload.take (buf.length - d.headers) = d.payload :=
    List.take_of_length_le (by rw [payload_length]; omega)
  obtain ⟨r, hr, rfl⟩ := captureDatagram_eq conn hdec a hbuf (Nat.le_trans hle h)
  rw [hr, hall]
  rfl

theorem captured_datagram (ip : Ipv4Header) (hwhole : HeaderWhole wire)
    {decode : Bytes → Option Segment} (hdec : DecodesHeaders decode) (conn : TcpConn)
    {cfg : CaptureConfig} (a : Arrived) {buf : Bytes} (hbuf : buf.length = cfg.bufLen)
    (h : ip.bytes.length + wire.length ≤ buf.length) :
    conn.captureDatagram cfg decode a buf (ip.bytes ++ wire) =
      .ok (some (conn.decodeSegment cfg.maxPayloadSize a.port a.handle a.ip (headerFields wire)
        a.now)) := by
  have hfields : (ip.datagram wire hwhole).fields = headerFields wire :=
    congrArg headerFields (ip.drop_append wire)
  rw [← hfields]
  exact captureDatagram_fits (d := ip.datagram wire hwhole) conn hdec a hbuf
    (Nat.le_trans (Nat.le_of_eq List.length_append) h)

/-- **The filter of a port** accepts the datagram exactly if it is the destination of the
segment. -/
theorem accepts_datagram (ip : Ipv4Header) (h : 4 ≤ wire.length) (port : UInt16) :
    (portProgram port.toUInt32).Accepts (ip.bytes ++ wire) ↔ port = beUint16At wire 2 := by
  have hge := ip.ihl_ge
  have hproto : (ip.bytes ++ wire)[9]? = some 6 := by
    rw [getElem?_byteAt (by rw [List.length_append]; omega), byteAt_append_left (by omega),
      ip.protocol]
  have hoffset : beUint16At (ip.bytes ++ wire) 6 &&& 0x1fff = 0 := by
    rw [beUint16At, byteAt_append_left (by omega), byteAt_append_left (by omega)]
    exact ip.offset
  have hport : beUint16At (ip.bytes ++ wire) (ip.bytes.length + 2) = beUint16At wire 2 := by
    rw [← beUint16At_drop, List.drop_left]
  rw [accepts_iff, ip.ihl_append, hport]
  constructor
  · rintro ⟨-, -, -, heq⟩
    exact heq.symm
  · intro heq
    refine ⟨hproto, hoffset, ?_, heq.symm⟩
    rw [List.length_append]
    omega

end

/-- What a call hands to a raw socket is the segment of the destination's flow. -/
theorem handed_segment {conn : TcpConn} {w : WriteCall} {handle : Nat} {tcp : Segment}
    (hw : (conn.writeToAddr w).handed = some (handle, tcp)) :
    ∃ flow : TcpFlow, tcp = flow.segment w.lport (destPort w.addr) w.p := by
  rcases writeToAddr_cases conn w with ⟨err, hr, -⟩ | ⟨-, hr⟩ | ⟨e, flow, h, -, -, -, hr⟩
  · rw [hr] at hw
    cases hw
  · rw [hr] at hw
    cases hw
  · rw [hr] at hw
    cases hw
    exact ⟨flow, rfl⟩

/-- **A segment is captured as it was written**, by a `gopacket` as assumed. Whatever `WriteTo`
hands to a raw socket, with the options in any state that earlier calls left them in, is 36 bytes of
header and the payload; behind any IPv4 header the socket filter of its destination port accepts it,
and no other port's; and a `captureFlow` whose buffer it fits decodes it, in both modes of reading,
to the segment that `WriteTo` built. -/
theorem written_segment_captured {serialize : UInt16 → List TCPOption → Segment → Bytes}
    (hser : SerializesHeaders serialize) {decode : Bytes → Option Segment}
    (hdec : DecodesHeaders decode) {conn : TcpConn} {w : WriteCall} {handle : Nat} {tcp : Segment}
    (hw : (conn.writeToAddr w).handed = some (handle, tcp)) {options : List TCPOption}
    (hoptions : Stamped options) (seed now : UInt32) (ip : Ipv4Header) (peer : TcpConn)
    {cfg : CaptureConfig} (a : Arrived) {buf : Bytes} (hbuf : buf.length = cfg.bufLen)
    (hfits : ip.bytes.length + 36 + w.p.length ≤ buf.length) :
    ∃ options' wire,
      FingerPrint.writeBytes serialize { fingerPrintLinux with options } seed now tcp =
        .ok (options', wire) ∧ Stamped options' ∧ wire.length = 36 + w.p.length ∧
      (∀ port : UInt16, ∃ prog,
        Bpf.attach (setBPFFilterPortByPacketConn port.toUInt32) = some prog ∧
        (prog.Accepts (ip.bytes ++ wire) ↔ port = destPort w.addr)) ∧
      peer.captureDatagram cfg decode a buf (ip.bytes ++ wire) =
        .ok (some (peer.decodeSegment cfg.maxPayloadSize a.port a.handle a.ip tcp a.now)) := by
  obtain ⟨flow, rfl⟩ := handed_segment hw
  obtain ⟨options', hstamp, hstamped⟩ := makeOption_stamped hoptions seed now
  have hlen := headerLen_stamped hstamped
  have hle : headerLen options' ≤ 60 := by omega
  have hwire := hser.length fingerPrintLinux.window options'
    (flow.segment w.lport (destPort w.addr) w.p) hle
  have hfields := hser.fields fingerPrintLinux.window options'
    (flow.segment w.lport (destPort w.addr) w.p) hle
  rw [hlen] at hwire
  change _ = 36 + w.p.length at hwire
  refine ⟨options', _, ?_, hstamped, hwire, fun port => ⟨_, attach_port _, ?_⟩, ?_⟩
  · unfold FingerPrint.writeBytes
    rw [show makeOption _ seed now _ = _ from hstamp]
    rfl
  · rw [accepts_datagram ip (by omega)]
    exact Eq.congr_right (congrArg Segment.dstPort hfields)
  · rw [captured_datagram ip (hser.whole _ _ hle) hdec peer a hbuf (by omega), hfields]

/-! ## The assumption can be met -/

theorem beUint16_bytes (v : UInt16) :
    UInt16.ofNat ((UInt8.ofNat (v.toNat / 2 ^ 8)).toNat * 2 ^ 8 +
      (UInt8.ofNat v.toNat).toNat) = v := by
  have hv := v.toNat_lt
  apply UInt16.toNat_inj.1
  simp only [UInt8.toNat_ofNat', UInt16.toNat_ofNat']
  omega

theorem beUint32_bytes (v : UInt32) :
    UInt32.ofNat ((UInt8.ofNat (v.toNat / 2 ^ 24)).toNat * 2 ^ 24 +
      (UInt8.ofNat (v.toNat / 2 ^ 16)).toNat * 2 ^ 16 +
      (UInt8.ofNat (v.toNat / 2 ^ 8)).toNat * 2 ^ 8 + (UInt8.ofNat v.toNat).toNat) = v := by
  have hv := v.toNat_lt
  apply UInt32.toNat_inj.1
  simp only [UInt8.toNat_ofNat', UInt32.toNat_ofNat']
  omega

/-- An option in a header. -/
def TCPOption.bytes (o : TCPOption) : Bytes :=
  if o.optionType = 0 ∨ o.optionType = 1 then [o.optionType]
  else o.optionType :: UInt8.ofNat (o.optionData.length + 2) :: o.optionData

/-- The offset and the flags. -/
def flagsAndOffset (offset : UInt8) (SYN PSH ACK : Bool) : UInt16 :=
  offset.toUInt16 <<< 12 ||| (if SYN then 0x02 else 0) ||| (if PSH then 0x08 else 0) |||
    (if ACK then 0x10 else 0)

/-- The options, padded to the length of the header. -/
def optionBytes (options : List TCPOption) : Bytes :=
  let bs := options.flatMap TCPOption.bytes
  bs ++ List.replicate (headerLen options - 20 - bs.length) 0

/-- A header and the payload, with a checksum of 0. -/
def writeHeader (window : UInt16) (options : List TCPOption) (tcp : Segment) : Bytes :=
  beBytes16 tcp.srcPort ++ beBytes16 tcp.dstPort ++ beBytes32 tcp.seq ++ beBytes32 tcp.ack ++
    beBytes16 (flagsAndOffset (UInt8.ofNat (headerLen options / 4)) tcp.SYN tcp.PSH tcp.ACK) ++
    beBytes16 window ++ beBytes16 0 ++ beBytes16 0 ++ optionBytes options ++ tcp.payload

theorem TCPOption.length_bytes (o : TCPOption) : o.bytes.length = o.size := by
  unfold TCPOption.bytes TCPOption.size
  split <;> rfl

theorem length_optionBytes (options : List TCPOption) :
    (optionBytes options).length = headerLen options - 20 := by
  have hsum : (options.flatMap TCPOption.bytes).length = (options.map TCPOption.size).sum := by
    simp [List.length_flatMap, TCPOption.length_bytes]
  simp only [optionBytes, List.length_append, List.length_replicate, hsum, headerLen]
  omega

/-- The two bytes of `flagsAndOffset` hold the offset and each flag. -/
theorem flagsAndOffset_bytes : ∀ (offset : Fin 16) (SYN PSH ACK : Bool),
    (UInt8.ofNat ((flagsAndOffset (UInt8.ofNat offset) SYN PSH ACK).toNat / 2 ^ 8) >>> 4).toNat =
        offset ∧
      (UInt8.ofNat (flagsAndOffset (UInt8.ofNat offset) SYN PSH ACK).toNat &&& 0x02 != 0) = SYN ∧
      (UInt8.ofNat (flagsAndOffset (UInt8.ofNat offset) SYN PSH ACK).toNat &&& 0x08 != 0) = PSH ∧
      (UInt8.ofNat (flagsAndOffset (UInt8.ofNat offset) SYN PSH ACK).toNat &&& 0x10 != 0) =
        ACK := by
  decide +kernel

theorem length_writeHeader (window : UInt16) (options : List TCPOption) (tcp : Segment) :
    (writeHeader window options tcp).length = headerLen options + tcp.payload.length := by
  have hge : 20 ≤ headerLen options := Nat.le_add_right _ _
  simp [writeHeader, length_optionBytes]
  omega

theorem serializesHeaders_writeHeader : SerializesHeaders writeHeader := by
  have hflags : ∀ window options tcp, headerLen options ≤ 60 →
      dataStart (writeHeader window options tcp) = headerLen options ∧
        (byteAt (writeHeader window options tcp) 13 &&& 0x02 != 0) = tcp.SYN ∧
        (byteAt (writeHeader window options tcp) 13 &&& 0x08 != 0) = tcp.PSH ∧
        (byteAt (writeHeader window options tcp) 13 &&& 0x10 != 0) = tcp.ACK := by
    intro window options tcp h
    have hlt : headerLen options / 4 < 16 := by omega
    have hmod : headerLen options % 4 = 0 := by
      unfold headerLen
      omega
    obtain ⟨hoffset, hSYN, hPSH, hACK⟩ := flagsAndOffset_bytes ⟨_, hlt⟩ tcp.SYN tcp.PSH tcp.ACK
    have hstart : dataStart (writeHeader window options tcp) = headerLen options / 4 * 4 :=
      congrArg (· * 4) hoffset
    exact ⟨by omega, hSYN, hPSH, hACK⟩
  refine ⟨fun window options tcp _ => length_writeHeader window options tcp,
    fun window options tcp h => (hflags window options tcp h).1, fun window options tcp h => ?_⟩
  obtain ⟨hstart, hSYN, hPSH, hACK⟩ := hflags window options tcp h
  have hge : 20 ≤ headerLen options := Nat.le_add_right _ _
  have hpayload : (writeHeader window options tcp).drop (headerLen options) = tcp.payload :=
    List.drop_left' (by simp [length_optionBytes]; omega)
  have hsrc : beUint16At (writeHeader window options tcp) 0 = tcp.srcPort := beUint16_bytes _
  have hdst : beUint16At (writeHeader window options tcp) 2 = tcp.dstPort := beUint16_bytes _
  have hseq : beUint32At (writeHeader window options tcp) 4 = tcp.seq := beUint32_bytes _
  have hack : beUint32At (writeHeader window options tcp) 8 = tcp.ack := beUint32_bytes _
  rw [headerFields, hSYN, hPSH, hACK, hstart, hpayload, hsrc, hdst, hseq, hack]

/-- The dialed `tcpConn` after the SYN-ACK of its peer. -/
def shaken70 : TcpConn :=
  (dialed70.decodeTCPPacket 40000 0 0x0a000002
    { srcPort := 80, dstPort := 40000, SYN := true, ACK := true, PSH := false, seq := 8, ack := 1,
      payload := [] } 1).2

/-- It writes three bytes to the peer. -/
def write70 : WriteCall where
  lport := 40000
  p := [1, 2, 3]
  addr := .tcp [10, 0, 0, 2] 80
  timeout := false
  accepts := true

/-- An IPv4 header of that datagram. -/
def header70 : Ipv4Header where
  bytes := [0x45, 0, 0, 59, 0, 0, 0, 0, 64, 6, 0, 0, 10, 0, 0, 1, 10, 0, 0, 2]
  version := rfl
  ihl_eq := rfl
  ihl_ge := Nat.le_refl _
  protocol := rfl
  offset := rfl

theorem written_segment_captured_three :
    ∃ tcp options' wire, (shaken70.writeToAddr write70).handed = some (0, tcp) ∧ tcp.seq = 1 ∧
      tcp.ack = 9 ∧ fingerPrintLinux.writeBytes writeHeader 5 6 tcp = .ok (options', wire) ∧
      wire.length = 39 ∧
      (TcpConn.new 1 Nat.one_pos).captureDatagram ⟨true, 1, 100⟩ decodeWhole
          ⟨80, 0, 0x0a000001, 2⟩ (List.replicate 100 0) (header70.bytes ++ wire) =
        .ok (some ((TcpConn.new 1 Nat.one_pos).decodeSegment 100 80 0 0x0a000001 tcp 2)) := by
  have hrun : (shaken70.writeToAddr write70).handed.map (fun x => (x.1, x.2.seq, x.2.ack)) =
      some (0, 1, 9) := by decide +kernel
  obtain ⟨⟨handle, tcp⟩, hw, hres⟩ := Option.map_eq_some_iff.1 hrun
  simp only [Prod.mk.injEq] at hres
  obtain ⟨rfl, hseq, hack⟩ := hres
  have hbuf : (List.replicate 100 (0 : UInt8)).length = CaptureConfig.bufLen ⟨true, 1, 100⟩ := by
    decide +kernel
  obtain ⟨options', wire, hok, -, hlen, -, hcap⟩ := written_segment_captured
    serializesHeaders_writeHeader decodeWhole_headers hw stamped_linux 5 6 header70
    (TcpConn.new 1 Nat.one_pos) ⟨80, 0, 0x0a000001, 2⟩ hbuf (by decide)
  exact ⟨tcp, options', wire, hw, hseq, hack, hok, hlen, hcap⟩

end Tcpraw
