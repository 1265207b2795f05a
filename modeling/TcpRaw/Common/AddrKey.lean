import TcpRaw.Lib.Go

/-!
# Address keys (`common/addrkey.go`)

`AddrToKey` packs the IPv4 address and the port of a TCP address; every other address is a panic. A
`Peer` is an address that has a key. A key determines the IPv4 address, and the port if that is a
port of a TCP header (`same_of_key`).
-/

namespace Common

open GoRt

/-- `AddrKey` -/
structure AddrKey where
  ip : UInt32
  port : UInt16
  deriving DecidableEq, Repr

/-- A `net.Addr`. -/
inductive NetAddr where
  | nil
  | tcp (ip : Bytes) (port : Nat)
  /-- An address that is not a `*net.TCPAddr`. -/
  | other
  deriving DecidableEq, Repr

/-- `IP.To4`: an IPv4 address in its 4-byte or its mapped 16-byte form. -/
def to4 (ip : Bytes) : Option Bytes :=
  if ip.length = 4 then some ip
  else if ip.length = 16 ∧ ip.take 12 = List.replicate 10 0 ++ [0xff, 0xff] then some (ip.drop 12)
  else none

/-- `binary.BigEndian.Uint32` -/
def beUint32 : Bytes → Go UInt32
  | b0 :: b1 :: b2 :: b3 :: _ =>
    .ok (UInt32.ofNat (b0.toNat * 2 ^ 24 + b1.toNat * 2 ^ 16 + b2.toNat * 2 ^ 8 + b3.toNat))
  | _ => .error .indexOutOfRange

/-- `AddrToKey` -/
def addrToKey : NetAddr → Go AddrKey
  | .nil => .error (.explicit "addr == nil")
  | .other => .error (.explicit "addr is not a tcp address")
  | .tcp ip port =>
    match to4 ip with
    | none => .error (.explicit "just support ipv4 for now")
    | some ip4 => do
      let ip ← beUint32 ip4
      pure { ip, port := UInt16.ofNat port }

/-- An address with its key. -/
structure Peer where
  addr : NetAddr
  key : AddrKey
  key_ok : addrToKey addr = .ok key

/-! ## What a key determines -/

/-- The port is one that a TCP header can hold. -/
def NetAddr.PortFits : NetAddr → Prop
  | .tcp _ port => port < 2 ^ 16
  | _ => True

instance : DecidablePred NetAddr.PortFits
  | .tcp _ port => inferInstanceAs (Decidable (port < 2 ^ 16))
  | .nil => isTrue trivial
  | .other => isTrue trivial

/-- Two TCP addresses with the same IPv4 address and the same port. -/
def NetAddr.same : NetAddr → NetAddr → Bool
  | .tcp ip port, .tcp ip' port' => to4 ip == to4 ip' && port == port'
  | _, _ => false

theorem length_to4 {ip ip4 : Bytes} (h : to4 ip = some ip4) : ip4.length = 4 := by
  unfold to4 at h
  split at h
  · cases h
    assumption
  · split at h
    · rename_i hlen
      cases h
      rw [List.length_drop, hlen.1]
    · cases h

theorem beUint32_inj {a b : Bytes} (ha : a.length = 4) (hb : b.length = 4)
    (h : beUint32 a = beUint32 b) : a = b := by
  obtain ⟨a0, a1, a2, a3, rfl⟩ := List.length_eq_four.1 ha
  obtain ⟨b0, b1, b2, b3, rfl⟩ := List.length_eq_four.1 hb
  have hnat := congrArg UInt32.toNat (Except.ok.inj h)
  rw [UInt32.toNat_ofNat', UInt32.toNat_ofNat'] at hnat
  have := a0.toNat_lt
  have := a1.toNat_lt
  have := a2.toNat_lt
  have := a3.toNat_lt
  have := b0.toNat_lt
  have := b1.toNat_lt
  have := b2.toNat_lt
  have := b3.toNat_lt
  obtain ⟨h0, h1, h2, h3⟩ : a0.toNat = b0.toNat ∧ a1.toNat = b1.toNat ∧ a2.toNat = b2.toNat ∧
      a3.toNat = b3.toNat := by omega
  rw [UInt8.toNat_inj.1 h0, UInt8.toNat_inj.1 h1, UInt8.toNat_inj.1 h2, UInt8.toNat_inj.1 h3]

theorem addrToKey_ok {a : NetAddr} {key : AddrKey} (h : addrToKey a = .ok key) :
    ∃ ip port ip4, a = .tcp ip port ∧ to4 ip = some ip4 ∧ beUint32 ip4 = .ok key.ip ∧
      key.port = UInt16.ofNat port := by
  cases a with
  | nil => cases h
  | other => cases h
  | tcp ip port =>
    simp only [addrToKey] at h
    cases hip : to4 ip with
    | none =>
      rw [hip] at h
      cases h
    | some ip4 =>
      rw [hip] at h
      dsimp only at h
      cases hbe : beUint32 ip4 with
      | error e =>
        rw [hbe] at h
        cases h
      | ok v =>
        rw [hbe] at h
        cases h
        exact ⟨ip, port, ip4, rfl, hip, hbe, rfl⟩

/-- **A key stands for one address.** -/
theorem same_of_key {a b : Peer} (ha : a.addr.PortFits) (hb : b.addr.PortFits)
    (h : a.key = b.key) : a.addr.same b.addr = true := by
  obtain ⟨ip, port, ip4, hea, hipa, hbea, hpa⟩ := addrToKey_ok a.key_ok
  obtain ⟨ip', port', ip4', heb, hipb, hbeb, hpb⟩ := addrToKey_ok b.key_ok
  rw [hea] at ha ⊢
  rw [heb] at hb ⊢
  have hip : ip4 = ip4' :=
    beUint32_inj (length_to4 hipa) (length_to4 hipb) (by rw [hbea, hbeb, h])
  have hport : port = port' := by
    have hnat := congrArg UInt16.toNat (hpa.symm.trans ((congrArg AddrKey.port h).trans hpb))
    rw [UInt16.toNat_ofNat', UInt16.toNat_ofNat'] at hnat
    unfold NetAddr.PortFits at ha hb
    omega
  simp [NetAddr.same, hipa, hipb, hip, hport]

end Common
