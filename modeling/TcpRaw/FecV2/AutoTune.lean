import TcpRaw.Lib.Go

/-!
# The parameter tuner (`faketcp/fecv2/autotune.go`)

The tuner sees every packet as a pulse: its sequence id, and whether it is a data packet. It keeps
the pulses of a window of `maxAutoTuneSamples` ids, each in the slot of its id modulo the window,
and reads the number of data and of parity shards of a block off them as the length of a level of
the signal (`findPeriod`): from the first rising edge in the window to the next falling one.

A slot that was never written holds the zero pulse. Slot 0 also gives the ids that the window takes:
those from its own up to `maxAutoTuneSamples` more.
-/

namespace Fecv2

def maxAutoTuneSamples : Nat := 258

/-- A 0/1 signal with time sequence. -/
structure Pulse where
  bit : Bool
  seq : UInt32
  deriving DecidableEq, Repr

/-- The zero value of a pulse. -/
def Pulse.zero : Pulse := ⟨false, 0⟩

/-- The pulse buffer. -/
structure AutoTune where
  pulses : List Pulse
  size : pulses.length = maxAutoTuneSamples

theorem length_zeroPulses :
    (List.replicate maxAutoTuneSamples Pulse.zero).length = maxAutoTuneSamples :=
  List.length_replicate

/-- The zero value of a tuner. -/
def AutoTune.new : AutoTune := ⟨List.replicate maxAutoTuneSamples Pulse.zero, length_zeroPulses⟩

/-- `tune.pulses[i]`, for an index in range. -/
def AutoTune.pulse (tune : AutoTune) (i : Nat) : Pulse := tune.pulses.getD i Pulse.zero

theorem AutoTune.length_set (tune : AutoTune) (i : Nat) (p : Pulse) :
    (tune.pulses.set i p).length = maxAutoTuneSamples := by
  rw [List.length_set]
  exact tune.size

/-- `tune.pulses[i] = p` -/
def AutoTune.setPulse (tune : AutoTune) (i : Nat) (p : Pulse) : AutoTune :=
  ⟨tune.pulses.set i p, tune.length_set i p⟩

/-- `Sample`: add a signal sample to the pulse buffer. -/
def AutoTune.sample (tune : AutoTune) (bit : Bool) (seq : UInt32) : AutoTune :=
  -- ensure seq is in range
  if (tune.pulse 0).seq ≤ seq ∧ seq ≤ (tune.pulse 0).seq + UInt32.ofNat maxAutoTuneSamples then
    tune.setPulse (seq % UInt32.ofNat maxAutoTuneSamples).toNat ⟨bit, seq⟩
  else tune

/-- The left edge loop over `count` indices from `idx` on: 0 if it finds none. -/
def AutoTune.leftEdge (tune : AutoTune) (bit : Bool) : Nat → Nat → Pulse → Nat
  | 0, _, _ => 0
  | count + 1, idx, lastPulse =>
    if lastPulse.bit ≠ bit ∧ (tune.pulse idx).bit = bit ∧
        lastPulse.seq + 1 = (tune.pulse idx).seq then idx
    else tune.leftEdge bit count (idx + 1) (tune.pulse idx)

/-- The right edge loop over `count` indices from `idx` on: 0 if it finds none, `none` where the
pulses of the level are not consecutive and the search gives up. -/
def AutoTune.rightEdge (tune : AutoTune) (bit : Bool) : Nat → Nat → Pulse → Option Nat
  | 0, _, _ => some 0
  | count + 1, idx, lastPulse =>
    if lastPulse.seq + 1 = (tune.pulse idx).seq then
      if lastPulse.bit = bit ∧ (tune.pulse idx).bit ≠ bit then some idx
      else tune.rightEdge bit count (idx + 1) (tune.pulse idx)
    else none

/-- `FindPeriod`: the period of the level `bit` of the signal, not positive if there is none. -/
def AutoTune.findPeriod (tune : AutoTune) (bit : Bool) : Int :=
  let leftEdge := tune.leftEdge bit (maxAutoTuneSamples - 1) 1 (tune.pulse 0)
  match tune.rightEdge bit (maxAutoTuneSamples - (leftEdge + 1)) (leftEdge + 1)
      (tune.pulse leftEdge) with
  | some rightEdge => (rightEdge : Int) - leftEdge
  | none => -1

/-! ## The slots of the buffer -/

theorem AutoTune.pulse_new (i : Nat) : AutoTune.new.pulse i = Pulse.zero := by
  rw [AutoTune.pulse, AutoTune.new, List.getD_eq_getElem?_getD, List.getElem?_replicate]
  split <;> rfl

theorem AutoTune.pulse_setPulse (tune : AutoTune) {i : Nat} (hi : i < maxAutoTuneSamples)
    (p : Pulse) (j : Nat) : (tune.setPulse i p).pulse j = if j = i then p else tune.pulse j := by
  rw [AutoTune.pulse, AutoTune.setPulse, List.getD_eq_getElem?_getD, List.getElem?_set]
  by_cases h : j = i
  · rw [if_pos h.symm, if_pos (by rw [tune.size]; exact hi), if_pos h, Option.getD_some]
  · rw [if_neg (Ne.symm h), if_neg h, AutoTune.pulse, List.getD_eq_getElem?_getD]

theorem toNat_slot (seq : UInt32) :
    (seq % UInt32.ofNat maxAutoTuneSamples).toNat = seq.toNat % 258 := by
  rw [UInt32.toNat_mod]
  rfl

theorem slot_lt (seq : UInt32) : seq.toNat % 258 < maxAutoTuneSamples := Nat.mod_lt _ (by decide)

/-- The last sequence id that the window takes, while it does not overflow. -/
theorem AutoTune.toNat_end {tune : AutoTune} (h : (tune.pulse 0).seq.toNat + 258 < 2 ^ 32) :
    ((tune.pulse 0).seq + UInt32.ofNat maxAutoTuneSamples).toNat =
      (tune.pulse 0).seq.toNat + 258 := by
  rw [UInt32.toNat_add]
  exact Nat.mod_eq_of_lt h

/-- What a sample does to the slots: nothing, or it is put into its own. -/
theorem AutoTune.pulse_sample_cases (tune : AutoTune) (bit : Bool) (seq : UInt32) (i : Nat) :
    (tune.sample bit seq).pulse i = tune.pulse i ∨
      i = seq.toNat % 258 ∧ (tune.sample bit seq).pulse i = ⟨bit, seq⟩ := by
  unfold AutoTune.sample
  split
  · rw [toNat_slot, tune.pulse_setPulse (slot_lt seq)]
    split
    · rename_i h
      exact .inr ⟨h, rfl⟩
    · exact .inl rfl
  · exact .inl rfl

/-- A sample in range is put into its slot. -/
theorem AutoTune.pulse_sample {tune : AutoTune} {bit : Bool} {seq : UInt32}
    (hle : (tune.pulse 0).seq.toNat ≤ seq.toNat)
    (hge : seq.toNat ≤ (tune.pulse 0).seq.toNat + 258)
    (hbase : (tune.pulse 0).seq.toNat + 258 < 2 ^ 32) (i : Nat) :
    (tune.sample bit seq).pulse i = if i = seq.toNat % 258 then ⟨bit, seq⟩ else tune.pulse i := by
  have hin : (tune.pulse 0).seq ≤ seq ∧
      seq ≤ (tune.pulse 0).seq + UInt32.ofNat maxAutoTuneSamples := by
    rw [UInt32.le_iff_toNat_le, UInt32.le_iff_toNat_le, AutoTune.toNat_end hbase]
    exact ⟨hle, hge⟩
  rw [AutoTune.sample, if_pos hin, toNat_slot, tune.pulse_setPulse (slot_lt seq)]

end Fecv2
