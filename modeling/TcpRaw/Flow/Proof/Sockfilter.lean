import TcpRaw.Flow.Sockfilter
import TcpRaw.Flow.Proof.Truncation

/-!
# The kernel's filter and `decodeTCPPacket`

The program of `setBPFFilterPortByPacketConn`, followed on any packet (`exec_port`): it ends early
on a packet that is too short, that is not TCP or that is a later fragment; else it looks at the
port, where the first byte says that the TCP header starts. `getIPv4HeaderLen` gives the same offset
for an IPv4 header that is all there, so the filter keeps the segments that `decodeTCPPacket` takes
for its port (`filters_agree`).
-/

namespace Tcpraw

open GoRt Bpf

/-- The program that the kernel makes of the instructions. -/
def portProgram (port : UInt32) : Program where
  instrs :=
    [.ldAbs .b 9, .jmp .eq (.k 6) 0 6, .ldAbs .h 6, .jmp .set (.k 0x1fff) 4 0, .ldxMsh 0,
      .ldInd .h 2, .jmp .eq (.k port) 0 1, .retK 0x40000, .retK 0]
  checked := rfl

theorem attach_port (port : UInt32) :
    attach (setBPFFilterPortByPacketConn port) = some (portProgram port) := rfl

/-- The state at `pc`. -/
def stateAt (pc : Nat) (a x : UInt32) : State := { State.init with pc, a, x }

section
variable {b : Bytes} {port : UInt32}

/-! ## Bytes -/

theorem getElem?_byteAt {i : Nat} (h : i < b.length) : b[i]? = some (byteAt b i) := by
  rw [byteAt, List.getD_eq_getElem?_getD, List.getElem?_eq_getElem h]
  rfl

theorem load_byteAt {i : UInt32} (h : i.toNat < b.length) :
    load b .b i = .ok (byteAt b i.toNat).toUInt32 :=
  load_b (getElem?_byteAt h)

theorem load_beUint16At {i : UInt32} (h : i.toNat + 1 < b.length) :
    load b .h i = .ok (beUint16At b i.toNat).toUInt32 :=
  load_h (getElem?_byteAt (Nat.lt_of_succ_lt h)) (getElem?_byteAt h)

theorem ihl_eq (b : Bytes) : ihl b = 4 * (byteAt b 0 &&& 0xf).toNat := by
  rw [ihl, Nat.shiftLeft_eq, Nat.mul_comm]

theorem ihl_le (b : Bytes) : ihl b ≤ 60 := by
  have : (byteAt b 0 &&& 0xf).toNat ≤ 15 := by
    rw [UInt8.toNat_and]
    exact Nat.and_le_right
  rw [ihl_eq]
  omega

/-! ## A run -/

theorem run_drop (fuel : Nat) (a x : UInt32) :
    run (portProgram port).instrs b (fuel + 1) (stateAt 8 a x) = some (.returned 0) :=
  run_halt (i := .retK 0) rfl rfl fuel

theorem exec_short (hlen : b.length < 10) : (portProgram port).exec b = some .rejected := by
  have hload : load b .b 9 = .error .rejected := load_out hlen
  exact run_halt (i := .ldAbs .b 9) rfl (by rw [Instr.step, hload]; rfl) 8

theorem exec_proto (hlen : 10 ≤ b.length) :
    (portProgram port).exec b =
      run (portProgram port).instrs b 8 (stateAt 1 (byteAt b 9).toUInt32 0) := by
  have hload : load b .b 9 = .ok (byteAt b 9).toUInt32 := load_byteAt hlen
  exact run_ok (i := .ldAbs .b 9) rfl (by rw [Instr.step, hload]; rfl) 8

theorem exec_other (hlen : 10 ≤ b.length) (hproto : byteAt b 9 ≠ 6) :
    (portProgram port).exec b = some (.returned 0) := by
  have hne : (byteAt b 9).toUInt32 ≠ 6 := fun h => hproto (UInt8.toUInt32_inj.1 h)
  have hjmp : run (portProgram port).instrs b 8 (stateAt 1 (byteAt b 9).toUInt32 0) =
      run (portProgram port).instrs b 7 (stateAt 8 (byteAt b 9).toUInt32 0) :=
    run_ok (i := .jmp .eq (.k 6) 0 6) rfl (step_jmp (beq_eq_false_iff_ne.2 hne)) 7
  rw [exec_proto hlen, hjmp, run_drop]

theorem exec_tcp (hlen : 10 ≤ b.length) (hproto : byteAt b 9 = 6) :
    (portProgram port).exec b =
      run (portProgram port).instrs b 6 (stateAt 3 (beUint16At b 6).toUInt32 0) := by
  have hload : load b .h 6 = .ok (beUint16At b 6).toUInt32 :=
    load_beUint16At (Nat.lt_of_lt_of_le (by decide) hlen)
  have hjmp : run (portProgram port).instrs b 8 (stateAt 1 6 0) =
      run (portProgram port).instrs b 7 (stateAt 2 6 0) :=
    run_ok (i := .jmp .eq (.k 6) 0 6) rfl rfl 7
  rw [exec_proto hlen, hproto]
  refine hjmp.trans ?_
  exact run_ok (i := .ldAbs .h 6) rfl (by rw [Instr.step, hload]; rfl) 6

theorem run_fragment {v : UInt16} (hfrag : v &&& 0x1fff ≠ 0) :
    run (portProgram port).instrs b 6 (stateAt 3 v.toUInt32 0) = some (.returned 0) := by
  have hset : v.toUInt32 &&& 0x1fff ≠ 0 := fun h => hfrag (by
    apply UInt16.toUInt32_inj.1
    rw [UInt16.toUInt32_and]
    exact h)
  have hjmp : run (portProgram port).instrs b 6 (stateAt 3 v.toUInt32 0) =
      run (portProgram port).instrs b 5 (stateAt 8 v.toUInt32 0) :=
    run_ok (i := .jmp .set (.k 0x1fff) 4 0) rfl (step_jmp (bne_iff_ne.2 hset)) 5
  rw [hjmp, run_drop]

/-- The length of the IPv4 header. -/
theorem run_ihl (hlen : 10 ≤ b.length) {v : UInt16} (hfrag : v &&& 0x1fff = 0) :
    run (portProgram port).instrs b 6 (stateAt 3 v.toUInt32 0) =
      run (portProgram port).instrs b 4 (stateAt 5 v.toUInt32 (UInt32.ofNat (ihl b))) := by
  have hset : v.toUInt32 &&& 0x1fff = 0 := by
    have := congrArg UInt16.toUInt32 hfrag
    rwa [UInt16.toUInt32_and] at this
  have hjmp : run (portProgram port).instrs b 6 (stateAt 3 v.toUInt32 0) =
      run (portProgram port).instrs b 5 (stateAt 4 v.toUInt32 0) :=
    run_ok (i := .jmp .set (.k 0x1fff) 4 0) rfl (step_jmp (bne_eq_false_iff_eq.2 hset)) 5
  have hload : load b .b 0 = .ok (byteAt b 0).toUInt32 :=
    load_byteAt (Nat.lt_of_lt_of_le (by decide) hlen)
  have hx : 4 * ((byteAt b 0).toUInt32 &&& 0xf) = UInt32.ofNat (ihl b) := by
    have hle : 4 * ((byteAt b 0).toNat &&& 15) ≤ 60 := Nat.mul_le_mul_left 4 Nat.and_le_right
    apply UInt32.toNat_inj.1
    simp [ihl_eq]
  rw [hjmp]
  refine run_ok (i := .ldxMsh 0) rfl ?_ 4
  rw [Instr.step, hload, ← hx]
  rfl

theorem toNat_portOffset (b : Bytes) : (UInt32.ofNat (ihl b) + 2).toNat = ihl b + 2 := by
  have := ihl_le b
  simp
  omega

/-- The port is outside the packet. -/
theorem run_port_out (hlen : b.length < ihl b + 4) (a : UInt32) :
    run (portProgram port).instrs b 4 (stateAt 5 a (UInt32.ofNat (ihl b))) = some .rejected := by
  have hload : load b .h (UInt32.ofNat (ihl b) + 2) = .error .rejected := by
    apply load_out
    rw [toNat_portOffset]
    exact hlen
  exact run_halt (i := .ldInd .h 2) rfl (by rw [Instr.step]; exact congrArg (· >>= _) hload) 3

theorem run_port (hlen : ihl b + 4 ≤ b.length) (port : UInt16) (a : UInt32) :
    run (portProgram port.toUInt32).instrs b 4 (stateAt 5 a (UInt32.ofNat (ihl b))) =
      some (.returned (if beUint16At b (ihl b + 2) = port then 0x40000 else 0)) := by
  have hload : load b .h (UInt32.ofNat (ihl b) + 2) = .ok (beUint16At b (ihl b + 2)).toUInt32 := by
    rw [← toNat_portOffset b]
    apply load_beUint16At
    rw [toNat_portOffset]
    exact hlen
  have hld : run (portProgram port.toUInt32).instrs b 4 (stateAt 5 a (UInt32.ofNat (ihl b))) =
      run (portProgram port.toUInt32).instrs b 3
        (stateAt 6 (beUint16At b (ihl b + 2)).toUInt32 (UInt32.ofNat (ihl b))) :=
    run_ok (i := .ldInd .h 2) rfl (by rw [Instr.step]; exact congrArg (· >>= _) hload) 3
  rw [hld]
  by_cases heq : beUint16At b (ihl b + 2) = port
  · rw [if_pos heq, heq]
    refine (run_ok (i := .jmp .eq (.k port.toUInt32) 0 1) rfl
      (step_jmp (beq_self_eq_true _)) 2).trans ?_
    exact run_halt (i := .retK 0x40000) rfl rfl 1
  · have hne : (beUint16At b (ihl b + 2)).toUInt32 ≠ port.toUInt32 := fun h =>
      heq (UInt16.toUInt32_inj.1 h)
    rw [if_neg heq]
    refine (run_ok (i := .jmp .eq (.k port.toUInt32) 0 1) rfl
      (step_jmp (beq_eq_false_iff_ne.2 hne)) 2).trans ?_
    exact run_drop 1 _ _

/-- **The program on any packet.** -/
theorem exec_port (b : Bytes) (port : UInt16) :
    (portProgram port.toUInt32).exec b = some (
      if b.length < 10 then .rejected
      else if byteAt b 9 ≠ 6 ∨ beUint16At b 6 &&& 0x1fff ≠ 0 then .returned 0
      else if b.length < ihl b + 4 then .rejected
      else .returned (if beUint16At b (ihl b + 2) = port then 0x40000 else 0)) := by
  by_cases hlen : b.length < 10
  · rw [if_pos hlen, exec_short hlen]
  rw [if_neg hlen]
  by_cases hproto : byteAt b 9 = 6
  · rw [exec_tcp (Nat.not_lt.1 hlen) hproto]
    by_cases hfrag : beUint16At b 6 &&& 0x1fff = 0
    · rw [if_neg (by simp [hproto, hfrag]), run_ihl (Nat.not_lt.1 hlen) hfrag]
      by_cases hport : b.length < ihl b + 4
      · rw [if_pos hport, run_port_out hport]
      · rw [if_neg hport, run_port (Nat.not_lt.1 hport)]
    · rw [if_pos (.inr hfrag), run_fragment hfrag]
  · rw [if_pos (.inl hproto), exec_other (Nat.not_lt.1 hlen) hproto]

/-- The program ends at a load only if the packet is too short. -/
theorem short_of_rejected {port : UInt16}
    (h : (portProgram port.toUInt32).exec b = some .rejected) :
    b.length < 10 ∨ b.length < ihl b + 4 := by
  rw [exec_port, Option.some.injEq] at h
  by_contra hlong
  obtain ⟨hlen, hport⟩ := not_or.1 hlong
  rw [if_neg hlen, if_neg hport] at h
  split at h <;> cases h

/-- **What the program keeps.** -/
theorem accepts_iff (b : Bytes) (port : UInt16) : (portProgram port.toUInt32).Accepts b ↔
    b[9]? = some 6 ∧ beUint16At b 6 &&& 0x1fff = 0 ∧ ihl b + 4 ≤ b.length ∧
      beUint16At b (ihl b + 2) = port := by
  rw [Program.accepts_of_exec (exec_port b port)]
  by_cases hlen : b.length < 10
  · have hnone : b[9]? = none := List.getElem?_eq_none (by omega)
    simp [hlen, hnone, Halt.Accepts]
  rw [if_neg hlen, getElem?_byteAt (Nat.not_lt.1 hlen), Option.some.injEq]
  by_cases hskip : byteAt b 9 ≠ 6 ∨ beUint16At b 6 &&& 0x1fff ≠ 0
  · rw [if_pos hskip]
    refine ⟨fun h => absurd rfl h, fun h => ?_⟩
    exact absurd hskip (by simp [h.1, h.2.1])
  obtain ⟨hproto, hfrag⟩ := not_or.1 hskip
  rw [if_neg hskip]
  by_cases hport : b.length < ihl b + 4
  · rw [if_pos hport]
    exact ⟨fun h => absurd h id, fun h => absurd hport (Nat.not_lt.2 h.2.2.1)⟩
  · rw [if_neg hport]
    simp [Halt.Accepts, not_not.1 hproto, not_not.1 hfrag, Nat.not_lt.1 hport]

end

/-! ## The port test of `decodeTCPPacket` -/

theorem decodeSegment_otherPort (conn : TcpConn) (maxPayloadSize : Nat) (port : UInt16)
    (handle : Nat) (ip : UInt32) (tcp : Segment) (now : Time) :
    (conn.decodeSegment maxPayloadSize port handle ip tcp now).1 = .otherPort ↔
      tcp.dstPort ≠ port := by
  unfold TcpConn.decodeSegment
  by_cases hport : tcp.dstPort = port
  · rw [if_neg (not_not_intro hport)]
    simp only [hport, ne_eq, not_true_eq_false, iff_false]
    split
    · simp
    · split
      · simp
      · split
        · simp
        · split <;> simp
  · rw [if_pos hport]
    exact ⟨fun _ => hport, fun _ => rfl⟩

theorem beUint16At_drop (b : Bytes) (n i : Nat) :
    beUint16At (b.drop n) i = beUint16At b (n + i) := by
  simp [beUint16At, byteAt, List.getD_eq_getElem?_getD, Nat.add_assoc]

theorem getIPv4HeaderLen_eq {b : Bytes} (h : getIPv4HeaderLen b ≠ 0) :
    getIPv4HeaderLen b = ihl b ∧ 20 ≤ b.length := by
  unfold getIPv4HeaderLen at h ⊢
  by_cases hlen : b.length < 20
  · simp [hlen] at h
  · by_cases hbad : byteAt b 0 >>> 4 ≠ 4 ∨ 20 > ihl b ∨ ihl b > b.length
    · rcases hbad with hbad | hbad <;> simp [hlen, hbad] at h
    · obtain ⟨hversion, hihl⟩ := not_or.1 hbad
      rw [if_neg hlen, if_neg hversion, if_neg hihl]
      exact ⟨rfl, Nat.not_lt.1 hlen⟩

/-- **The kernel's filter and the test of `decodeTCPPacket`**, for every port and every packet. The
kernel takes the program, and it ends: at a return, or at a load outside the packet, which rejects
it. It keeps the packets of protocol 6 that are no later fragment and have the port where their
first byte says that the TCP header starts. For an IPv4 header that is all there, with 4 bytes after
it, these are the segments whose destination port is the port; and if the TCP header is all there,
those that `decodeTCPPacket` does not drop for another port. -/
theorem filters_agree (port : UInt16) :
    ∃ prog, attach (setBPFFilterPortByPacketConn port.toUInt32) = some prog ∧ ∀ b : Bytes,
      ((∃ v, prog.exec b = some (.returned v)) ∨ prog.exec b = some .rejected ∧
        (b.length < 10 ∨ b.length < 4 * (byteAt b 0 &&& 0xf).toNat + 4)) ∧
      (prog.Accepts b ↔ b[9]? = some 6 ∧ beUint16At b 6 &&& 0x1fff = 0 ∧
        4 * (byteAt b 0 &&& 0xf).toNat + 4 ≤ b.length ∧
        beUint16At b (4 * (byteAt b 0 &&& 0xf).toNat + 2) = port) ∧
      ∀ h, getIPv4HeaderLen b = h → h ≠ 0 → byteAt b 9 = 6 → beUint16At b 6 &&& 0x1fff = 0 →
        h + 4 ≤ b.length →
        (prog.Accepts b ↔ beUint16At (b.drop h) 2 = port) ∧
        ∀ decode tcp, DecodesHeaders decode → HeaderWhole (b.drop h) →
          decode (b.drop h) = some tcp →
          ∀ (conn : TcpConn) (maxPayloadSize handle : Nat) (ip : UInt32) (now : Time),
            (prog.Accepts b ↔
              (conn.decodeSegment maxPayloadSize port handle ip tcp now).1 ≠ .otherPort) := by
  refine ⟨portProgram port.toUInt32, attach_port _, fun b => ⟨?_, ?_, ?_⟩⟩
  · obtain ⟨h, hexec⟩ := (portProgram port.toUInt32).exec_ends b
    cases h with
    | returned v => exact .inl ⟨v, hexec⟩
    | rejected =>
      rw [← ihl_eq]
      exact .inr ⟨hexec, short_of_rejected hexec⟩
  · rw [← ihl_eq]
    exact accepts_iff b port
  · rintro h hlen hne hproto hfrag hin
    subst hlen
    obtain ⟨hihl, hlen⟩ := getIPv4HeaderLen_eq hne
    rw [hihl] at hin ⊢
    have hacc : (portProgram port.toUInt32).Accepts b ↔ beUint16At (b.drop (ihl b)) 2 = port := by
      rw [accepts_iff, beUint16At_drop, getElem?_byteAt (show 9 < b.length by omega)]
      simp [hproto, hfrag, hin]
    refine ⟨hacc, fun decode tcp hdec hwhole htcp conn maxPayloadSize handle ip now => ?_⟩
    rw [hdec _ hwhole] at htcp
    cases htcp
    rw [hacc, Ne, decodeSegment_otherPort, not_not]
    rfl

/-- A SYN to port 80, behind an IPv4 header with one word of options. -/
def synWithOptions : Bytes :=
  0x46 :: List.replicate 8 0 ++ 6 :: List.replicate 14 0 ++ [0x10, 0x00, 0x00, 0x50] ++
    List.replicate 8 0 ++ [0x50, 0x02] ++ List.replicate 6 0

theorem filters_agree_options :
    ∃ prog, attach (setBPFFilterPortByPacketConn (80 : UInt16).toUInt32) = some prog ∧
      getIPv4HeaderLen synWithOptions = 24 ∧ prog.Accepts synWithOptions ∧
      ∀ (conn : TcpConn) (maxPayloadSize handle : Nat) (ip : UInt32) (now : Time) (tcp : Segment),
        decodeWhole (synWithOptions.drop 24) = some tcp →
        (conn.decodeSegment maxPayloadSize 80 handle ip tcp now).1 ≠ .otherPort := by
  obtain ⟨prog, hprog, hagree⟩ := filters_agree 80
  obtain ⟨hport, hdecode⟩ :=
    (hagree synWithOptions).2.2 24 (by decide) (by decide) (by decide) (by decide) (by decide)
  have hacc : prog.Accepts synWithOptions := hport.2 (by decide)
  exact ⟨prog, hprog, by decide, hacc, fun conn maxPayloadSize handle ip now tcp htcp =>
    (hdecode _ tcp decodeWhole_headers (by decide) htcp conn maxPayloadSize handle ip now).1 hacc⟩

/-- **A captured segment behind the filter**: of the complete datagrams that carry the start of a
TCP segment, `captureFlow` drops for their port those that the filter does not keep. -/
theorem captured_iff_kept {cfg : CaptureConfig} {buf : Bytes} {d : TcpDatagram} (conn : TcpConn)
    {decode : Bytes → Option Segment} (hdec : DecodesHeaders decode) (a : Arrived)
    (hbuf : buf.length = cfg.bufLen) (h : d.headers ≤ buf.length) (hproto : byteAt d.bytes 9 = 6)
    (hfrag : beUint16At d.bytes 6 &&& 0x1fff = 0) :
    ∃ r, conn.captureDatagram cfg decode a buf d.bytes = .ok (some r) ∧
      (r.1 ≠ .otherPort ↔ (portProgram a.port.toUInt32).Accepts d.bytes) := by
  obtain ⟨r, hr, rfl⟩ := captureDatagram_eq conn hdec a hbuf h
  have hlen := headers_le d
  have hge := headers_ge d
  have hstart : 20 ≤ dataStart d.segment := d.tcp.2.1
  have hin : ihl d.bytes + 4 ≤ d.bytes.length := by
    unfold TcpDatagram.headers at hlen
    omega
  refine ⟨_, hr, ?_⟩
  rw [Ne, decodeSegment_otherPort, not_not, accepts_iff,
    getElem?_byteAt (show 9 < d.bytes.length by omega), ← beUint16At_drop]
  simp only [hproto, hfrag, hin, true_and]
  rfl

/-- The filter of the kernel's own connections keeps nothing. -/
theorem attachBPFFilter_drops : ∃ prog, attach attachBPFFilter = some prog ∧
    ∀ pkt, ¬ prog.Accepts pkt := by
  refine ⟨⟨[.retK 0], rfl⟩, rfl, fun pkt => ?_⟩
  have hexec : Program.exec ⟨[.retK 0], rfl⟩ pkt = some (.returned 0) :=
    run_halt (i := .retK 0) rfl rfl 0
  rw [Program.accepts_of_exec hexec]
  exact fun h => h rfl

end Tcpraw
