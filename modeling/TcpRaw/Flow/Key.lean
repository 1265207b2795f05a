import TcpRaw.Common.AddrKey
import TcpRaw.Flow.Table

/-!
# Flow keys (`tcp_linux.go`, `addrSplit`, `decodeTCPPacket`, `WriteTo`)

A flow key is computed in three places: from the source of a captured segment (`captureKey`), from
the remote address of a kernel connection (`remoteKey`, in the accept loop and in `Dial`) and from
the destination of a write (`writeToKey`). The last two go through `addrSplit`, which maps every
address that is not IPv4 to the zero key; the first converts the address itself, and panics there.

`keys_identify_iff`: the three agree, and tell two peers apart, exactly for IPv4 addresses.
-/

namespace Tcpraw

open GoRt
open Common (NetAddr to4 beUint32 length_to4 beUint32_inj)

/-- `addrSplit` -/
def addrSplit : NetAddr → Go (UInt32 × UInt16)
  | .nil => pure (0, 0)
  | .other => .error (.explicit "addr is not a tcp address")
  | .tcp ip port =>
    match to4 ip with
    -- it is ipv6
    | none => pure (0, 0)
    | some ip4 => do
      let ip ← beUint32 ip4
      pure (ip, UInt16.ofNat port)

/-- The key of a kernel connection from its `RemoteAddr`, in the accept loop of `Listen` and in
`Dial`. -/
def remoteKey (addr : NetAddr) : Go AddrKey := do
  let s ← addrSplit addr
  pure { dip := s.1, dport := s.2 }

/-- The key of a destination in `WriteTo`; `none` for the error "addr is not a tcp address". -/
def writeToKey : NetAddr → Go (Option AddrKey)
  | .tcp ip port => do
    let s ← addrSplit (.tcp ip port)
    pure (some { dip := s.1, dport := s.2 })
  | _ => pure none

/-- The key of a segment in `decodeTCPPacket`. `To4` of an IPv6 address is a nil slice. -/
def captureKey (ip : Bytes) (srcPort : UInt16) : Go AddrKey := do
  let dip ← beUint32 ((to4 ip).getD [])
  pure { dip, dport := srcPort }

/-- The address of a remote: an IP in one of its forms, and a port of a TCP header. -/
structure PeerAddr where
  ip : Bytes
  port : UInt16
  len : ip.length = 4 ∨ ip.length = 16

/-- As a `*net.TCPAddr`. -/
def PeerAddr.tcpAddr (a : PeerAddr) : NetAddr := .tcp a.ip a.port.toNat

/-- IPv4, in the 4-byte or in the mapped 16-byte form. -/
def PeerAddr.IsIPv4 (a : PeerAddr) : Prop := (to4 a.ip).isSome

/-- `IP.To16`, for the lengths of an address. -/
def to16 (ip : Bytes) : Bytes :=
  if ip.length = 4 then List.replicate 10 0 ++ [0xff, 0xff] ++ ip else ip

/-- The same IP and port (`IP.Equal`): the two forms of an IPv4 address are the same IP. -/
def PeerAddr.Same (a b : PeerAddr) : Prop := to16 a.ip = to16 b.ip ∧ a.port = b.port

/-- All three places compute the key `k` for the address. -/
structure PeerAddr.Keyed (a : PeerAddr) (k : AddrKey) : Prop where
  captured : captureKey a.ip a.port = .ok k
  remote : remoteKey a.tcpAddr = .ok k
  written : writeToKey a.tcpAddr = .ok (some k)

/-! ## IPv4 addresses -/

theorem to16_of_to4 {ip ip4 : Bytes} (h : to4 ip = some ip4) :
    to16 ip = List.replicate 10 0 ++ [0xff, 0xff] ++ ip4 := by
  unfold to4 at h
  split at h
  · rename_i hlen
    cases h
    rw [to16, if_pos hlen]
  · rename_i hlen
    split at h
    · rename_i hmapped
      cases h
      rw [to16, if_neg hlen, ← hmapped.2, List.take_append_drop]
    · cases h

theorem beUint32_ok {b : Bytes} (h : b.length = 4) : ∃ v, beUint32 b = .ok v := by
  obtain ⟨b0, b1, b2, b3, rfl⟩ := List.length_eq_four.1 h
  exact ⟨_, rfl⟩

theorem keyed_of_to4 (a : PeerAddr) {ip4 : Bytes} {v : UInt32} (h4 : to4 a.ip = some ip4)
    (hv : beUint32 ip4 = .ok v) : a.Keyed { dip := v, dport := a.port } := by
  have hsplit : addrSplit a.tcpAddr = .ok (v, a.port) := by
    unfold addrSplit PeerAddr.tcpAddr
    dsimp only
    rw [h4]
    dsimp only
    rw [hv, ok_bind, UInt16.ofNat_toNat]
    rfl
  refine ⟨?_, ?_, ?_⟩
  · rw [captureKey, h4, Option.getD_some, hv]
    rfl
  · rw [remoteKey, hsplit]
    rfl
  · rw [PeerAddr.tcpAddr] at hsplit
    rw [PeerAddr.tcpAddr, writeToKey, hsplit]
    rfl

theorem isIPv4_of_captured {a : PeerAddr} {k : AddrKey} (h : captureKey a.ip a.port = .ok k) :
    a.IsIPv4 := by
  unfold PeerAddr.IsIPv4
  cases h4 : to4 a.ip with
  | some ip4 => rfl
  | none =>
    rw [captureKey, h4] at h
    cases h

/-- The keys of two IPv4 addresses are equal if and only if the addresses are. -/
theorem key_eq_iff {a b : PeerAddr} {a4 b4 : Bytes} {v w : UInt32} (ha : to4 a.ip = some a4)
    (hb : to4 b.ip = some b4) (hv : beUint32 a4 = .ok v) (hw : beUint32 b4 = .ok w) :
    (⟨v, a.port⟩ : AddrKey) = ⟨w, b.port⟩ ↔ a.Same b := by
  unfold PeerAddr.Same
  rw [to16_of_to4 ha, to16_of_to4 hb, List.append_cancel_left_eq, AddrKey.mk.injEq]
  apply and_congr_left'
  constructor
  · intro h
    exact beUint32_inj (length_to4 ha) (length_to4 hb) (by rw [hv, hw, h])
  · intro h
    rw [h, hw] at hv
    exact (Except.ok.inj hv).symm

/-- **Flow keys identify IPv4 peers, and only those.** For two remote addresses of any family and
any port: the three keys of each are defined and equal, and the keys of the two are equal if and
only if their IPs and ports are, exactly if both addresses are IPv4. -/
theorem keys_identify_iff (a b : PeerAddr) :
    (∃ ka kb, a.Keyed ka ∧ b.Keyed kb ∧ (ka = kb ↔ a.Same b)) ↔ a.IsIPv4 ∧ b.IsIPv4 := by
  constructor
  · rintro ⟨ka, kb, hka, hkb, -⟩
    exact ⟨isIPv4_of_captured hka.captured, isIPv4_of_captured hkb.captured⟩
  · rintro ⟨ha, hb⟩
    obtain ⟨a4, ha4⟩ := Option.isSome_iff_exists.1 ha
    obtain ⟨b4, hb4⟩ := Option.isSome_iff_exists.1 hb
    obtain ⟨v, hv⟩ := beUint32_ok (length_to4 ha4)
    obtain ⟨w, hw⟩ := beUint32_ok (length_to4 hb4)
    exact ⟨_, _, keyed_of_to4 a ha4 hv, keyed_of_to4 b hb4 hw, key_eq_iff ha4 hb4 hv hw⟩

/-- The address ::1, port 80. -/
def loopback6 : PeerAddr := ⟨[0, 0, 0, 0, 0, 0, 0, 0, 0, 0, 0, 0, 0, 0, 0, 1], 80, .inr rfl⟩

/-- The address 2001:db8::2, port 443. -/
def documentation6 : PeerAddr :=
  ⟨[0x20, 0x01, 0x0d, 0xb8, 0, 0, 0, 0, 0, 0, 0, 0, 0, 0, 0, 2], 443, .inr rfl⟩

/-- **IPv6 peers**: a captured segment is a panic, and two different addresses have the same key in
the accept loop, in `Dial` and in `WriteTo`. -/
theorem ipv6_keys_collide :
    captureKey loopback6.ip loopback6.port = .error .indexOutOfRange ∧
      ¬ loopback6.Same documentation6 ∧
      remoteKey loopback6.tcpAddr = .ok ⟨0, 0⟩ ∧ remoteKey documentation6.tcpAddr = .ok ⟨0, 0⟩ ∧
      writeToKey loopback6.tcpAddr = .ok (some ⟨0, 0⟩) ∧
      writeToKey documentation6.tcpAddr = .ok (some ⟨0, 0⟩) := by
  refine ⟨rfl, ?_, rfl, rfl, rfl, rfl⟩
  rintro ⟨-, hport⟩
  exact absurd hport (by decide)

end Tcpraw
