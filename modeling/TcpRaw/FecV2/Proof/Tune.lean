import TcpRaw.FecV2.Proof.AutoTune
import TcpRaw.FecV2.Proof.Refine

/-!
# Tuning to a sender

`pulse_window`: while only the first 258 packets of a sender were seen, the window holds exactly the
ones that were. On the packets from the sender's first one on without gaps both periods are found
with packet `2 * d + p` and not before (`periods_found`, `periods_missing`). Until then a decoder
with other parameters keeps these (`Untuned`), and is out of sync by the end of the first block
(`signal_agree`).

`tuning_converges`: with packet `2 * d + p` the decoder has the sender's parameters, and from then
on it collects the sender's packets like a new decoder that had them from the start.
-/

namespace Fecv2

open GoRt Erasure Collector
open Faketcp (packet flagOf blockShard blockOf)

/-! ## The first window -/

section
variable {d p : Nat} {ks : List Nat} {bit : Bool}

theorem sampleAll_concat (d p : Nat) (tune : AutoTune) (ks : List Nat) (k : Nat) :
    sampleAll d p tune (ks ++ [k]) =
      (sampleAll d p tune ks).sample (signal d p k) (UInt32.ofNat k) := by
  simp [sampleAll]

/-- **The first window** holds the packets that were seen, each in its slot. -/
theorem pulse_window (hks : ∀ k ∈ ks, k < 258) (i : Nat) :
    (sampleAll d p AutoTune.new ks).pulse i =
      if i ∈ ks then ⟨signal d p i, UInt32.ofNat i⟩ else Pulse.zero := by
  induction ks using List.reverseRecOn generalizing i with
  | nil => exact AutoTune.pulse_new i
  | append_singleton ks k ih =>
    have hks' : ∀ k ∈ ks, k < 258 := fun k' hk' => hks k' (by simp [hk'])
    have hk := hks k (by simp)
    have hnat : (UInt32.ofNat k).toNat = k :=
      UInt32.toNat_ofNat_of_lt' (Nat.lt_trans hk (by decide))
    have hbase : ((sampleAll d p AutoTune.new ks).pulse 0).seq.toNat = 0 :=
      sampleAll_base hks' (by rw [AutoTune.pulse_new]; rfl)
    rw [sampleAll_concat, AutoTune.pulse_sample (by omega) (by omega) (by omega), hnat,
      Nat.mod_eq_of_lt hk, ih hks']
    by_cases hik : i = k
    · simp [hik]
    · simp [hik]

theorem bit_window (hks : ∀ k ∈ ks, k < 258) (i : Nat) :
    ((sampleAll d p AutoTune.new ks).pulse i).bit = (decide (i ∈ ks) && signal d p i) := by
  rw [pulse_window hks]
  by_cases h : i ∈ ks <;> simp [h, Pulse.zero]

theorem seq_window (hks : ∀ k ∈ ks, k < 258) (i : Nat) :
    ((sampleAll d p AutoTune.new ks).pulse i).seq.toNat = if i ∈ ks then i else 0 := by
  rw [pulse_window hks]
  split
  · rename_i h
    exact UInt32.toNat_ofNat_of_lt' (Nat.lt_trans (hks i h) (by decide))
  · rfl

/-- Where the pulses of the window are consecutive: slot 0 counts as id 0 also when it is empty. -/
theorem next_window (hks : ∀ k ∈ ks, k < 258) (i : Nat) :
    ((sampleAll d p AutoTune.new ks).pulse i).seq + 1 =
        ((sampleAll d p AutoTune.new ks).pulse (i + 1)).seq ↔
      i + 1 ∈ ks ∧ (i ∈ ks ∨ i = 0) := by
  have hle : (if i ∈ ks then i else 0) ≤ 258 := by
    split
    · rename_i h
      exact Nat.le_of_lt (hks i h)
    · omega
  rw [← UInt32.toNat_inj, UInt32.toNat_add, seq_window hks, seq_window hks, UInt32.toNat_one,
    Nat.mod_eq_of_lt (by omega)]
  by_cases h1 : i + 1 ∈ ks <;> by_cases h : i ∈ ks <;> simp [h1, h]

theorem level_window (hks : ∀ k ∈ ks, k < 258) {l r : Nat} (hlt : l < r)
    (hmem : ∀ i, l ≤ i → i ≤ r → i ∈ ks) (hlevel : ∀ i, l ≤ i → i < r → signal d p i = bit)
    (hnext : signal d p r ≠ bit) : Level (sampleAll d p AutoTune.new ks) bit l r where
  lt := hlt
  consecutive i h1 h2 := (next_window hks i).2 ⟨hmem _ (by omega) h2, .inl (hmem i h1 (by omega))⟩
  level i h1 h2 := by
    rw [bit_window hks, decide_eq_true (hmem i h1 (by omega)), Bool.true_and]
    exact hlevel i h1 h2
  next := by
    rw [bit_window hks, decide_eq_true (hmem r (by omega) (Nat.le_refl _)), Bool.true_and]
    exact hnext

/-! ## The first two blocks of the signal -/

theorem signal_low {k : Nat} (hk : k < d + p) : signal d p k = true ↔ k < d := by
  rw [signal_eq_true, Nat.mod_eq_of_lt hk]

theorem signal_second {k : Nat} (h1 : d + p ≤ k) (h2 : k < 2 * (d + p)) :
    signal d p k = true ↔ k < 2 * d + p := by
  rw [signal_eq_true, Nat.mod_eq_sub_mod h1, Nat.mod_eq_of_lt (by omega)]
  omega

/-- **Two signals that agree on a block** and the packet after it are of the same parameters. -/
theorem signal_agree {d' p' : Nat} (h0 : 0 < d) (hp : 0 < p) (h0' : 0 < d') (hp' : 0 < p')
    (h : ∀ k ≤ d + p, signal d p k = signal d' p' k) : d = d' ∧ p = p' := by
  -- the first packet of each kind after another
  have hd : d = d' := by
    rcases Nat.lt_trichotomy d d' with hlt | heq | hgt
    · have h1 := h d (by omega)
      rw [(signal_low (by omega)).2 hlt, signal_low (by omega)] at h1
      omega
    · exact heq
    · have h1 := h d' (by omega)
      rw [(signal_low (by omega)).2 hgt] at h1
      have h2 := (signal_low (by omega)).1 h1.symm
      omega
  subst hd
  refine ⟨rfl, ?_⟩
  rcases Nat.lt_trichotomy p p' with hlt | heq | hgt
  · have h1 := h (d + p) (by omega)
    rw [(signal_second (by omega) (by omega)).2 (by omega)] at h1
    have h2 := (signal_low (by omega)).1 h1.symm
    omega
  · exact heq
  · have h1 := h (d + p') (by omega)
    rw [(signal_second (d := d) (p := p') (by omega) (by omega)).2 (by omega),
      signal_low (by omega)] at h1
    omega

/-! ## The periods on packets without gaps -/

theorem range_lt {m : Nat} (hmax : m < 258) : ∀ k ∈ List.range (m + 1), k < 258 := fun k hk => by
  have := List.mem_range.1 hk
  omega

theorem rises_range {m j : Nat} (hmax : m < 258) :
    Rises (sampleAll d p AutoTune.new (List.range (m + 1))) bit (j + 1) ↔
      j + 1 ≤ m ∧ signal d p j ≠ bit ∧ signal d p (j + 1) = bit := by
  rw [Rises, Nat.add_sub_cancel, next_window (range_lt hmax), bit_window (range_lt hmax),
    bit_window (range_lt hmax)]
  simp only [List.mem_range, Nat.succ_lt_succ_iff, Nat.succ_le_iff]
  constructor
  · rintro ⟨hne, hbit, hj, -⟩
    rw [decide_eq_true (Nat.lt_succ_of_lt hj), Bool.true_and] at hne
    rw [decide_eq_true hj, Bool.true_and] at hbit
    exact ⟨hj, hne, hbit⟩
  · rintro ⟨hj, hne, hbit⟩
    rw [decide_eq_true (Nat.lt_succ_of_lt hj), decide_eq_true hj, Bool.true_and, Bool.true_and]
    exact ⟨hne, hbit, hj, .inl (Nat.lt_succ_of_lt hj)⟩

theorem rises_second {m : Nat} (h0 : 0 < d) (hp : 0 < p) (hm : d + p ≤ m) (hmax : m < 258) :
    Rises (sampleAll d p AutoTune.new (List.range (m + 1))) true (d + p) := by
  obtain ⟨j, hj⟩ : ∃ j, d + p = j + 1 := ⟨d + p - 1, by omega⟩
  rw [hj, rises_range hmax]
  refine ⟨by omega, ?_, (signal_second (by omega) (by omega)).2 (by omega)⟩
  rw [Ne, signal_low (by omega)]
  omega

theorem period_data {m : Nat} (h0 : 0 < d) (hp : 0 < p) (hm : 2 * d + p ≤ m) (hmax : m < 258) :
    (sampleAll d p AutoTune.new (List.range (m + 1))).findPeriod true = d := by
  have hL : Level (sampleAll d p AutoTune.new (List.range (m + 1))) true (d + p) (2 * d + p) := by
    refine level_window (range_lt hmax) (by omega) (fun i _ hi => List.mem_range.2 (by omega))
      (fun i h1 h2 => (signal_second h1 (by omega)).2 h2) ?_
    rw [Ne, signal_second (by omega) (by omega)]
    omega
  have hfirst : ∀ j, 1 ≤ j → j < d + p →
      ¬ Rises (sampleAll d p AutoTune.new (List.range (m + 1))) true j := by
    intro j h1 h2 hr
    obtain ⟨j, rfl⟩ : ∃ i, j = i + 1 := ⟨j - 1, by omega⟩
    obtain ⟨-, hne, hbit⟩ := (rises_range hmax).1 hr
    rw [signal_low h2] at hbit
    rw [Ne, signal_low (by omega)] at hne
    omega
  rw [findPeriod_eq hL (by unfold maxAutoTuneSamples; omega)
    (.inl ⟨by omega, rises_second h0 hp (by omega) hmax⟩) hfirst]
  omega

theorem period_parity {m : Nat} (h0 : 0 < d) (hp : 0 < p) (hm : d + p ≤ m) (hmax : m < 258) :
    (sampleAll d p AutoTune.new (List.range (m + 1))).findPeriod false = p := by
  have hlow : ∀ k, k < d + p → (signal d p k = false ↔ d ≤ k) := fun k hk => by
    rw [← Bool.not_eq_true, signal_low hk, Nat.not_lt]
  have hL : Level (sampleAll d p AutoTune.new (List.range (m + 1))) false d (d + p) := by
    refine level_window (range_lt hmax) (by omega) (fun i _ hi => List.mem_range.2 (by omega))
      (fun i h1 h2 => (hlow i h2).2 h1) ?_
    rw [(signal_second (Nat.le_refl _) (by omega)).2 (by omega)]
    decide
  have hrise : Rises (sampleAll d p AutoTune.new (List.range (m + 1))) false d := by
    obtain ⟨j, hj⟩ : ∃ j, d = j + 1 := ⟨d - 1, by omega⟩
    have hbefore : signal d p j = true := (signal_low (by omega)).2 (by omega)
    have hat := (hlow d (by omega)).2 (Nat.le_refl _)
    rw [hj] at hat hbefore ⊢
    rw [rises_range hmax]
    exact ⟨by omega, by rw [hbefore]; decide, hat⟩
  have hfirst : ∀ j, 1 ≤ j → j < d →
      ¬ Rises (sampleAll d p AutoTune.new (List.range (m + 1))) false j := by
    intro j h1 h2 hr
    obtain ⟨j, rfl⟩ : ∃ i, j = i + 1 := ⟨j - 1, by omega⟩
    obtain ⟨-, -, hbit⟩ := (rises_range hmax).1 hr
    rw [hlow _ (by omega)] at hbit
    omega
  rw [findPeriod_eq hL (by unfold maxAutoTuneSamples; omega) (.inl ⟨by omega, hrise⟩) hfirst]
  omega

/-- **Before packet `2 * d + p`** one of the periods is not found. -/
theorem periods_missing {m : Nat} (h0 : 0 < d) (hp : 0 < p) (hm : m < 2 * d + p) (hmax : m < 258) :
    ¬ (0 < (sampleAll d p AutoTune.new (List.range (m + 1))).findPeriod true ∧
      0 < (sampleAll d p AutoTune.new (List.range (m + 1))).findPeriod false) := by
  rintro ⟨htrue, hfalse⟩
  -- the parity level ends with the first packet of the second block
  have hpar : d + p ≤ m := by
    obtain ⟨l, r, -, hr, hL, hstart⟩ := findPeriod_pos hfalse
    have hlt := hL.lt
    have hnext := hL.next
    have hl := hL.level l (Nat.le_refl _) hlt
    rw [bit_window (range_lt hmax)] at hnext hl
    simp only [Bool.not_eq_false, Bool.and_eq_true, decide_eq_true_eq, List.mem_range] at hnext
    rcases hstart with ⟨hl0, hrise⟩ | ⟨rfl, -⟩
    · obtain ⟨l, rfl⟩ : ∃ i, l = i + 1 := ⟨l - 1, by omega⟩
      obtain ⟨hlm, -, hbit⟩ := (rises_range hmax).1 hrise
      by_contra hlow
      rw [← Bool.not_eq_true, signal_low (by omega)] at hbit
      rw [signal_low (by omega)] at hnext
      omega
    · rw [decide_eq_true (List.mem_range.2 (Nat.succ_pos m)), Bool.true_and, ← Bool.not_eq_true,
        signal_low (by omega)] at hl
      omega
  -- the data level then starts there, and its end has not been seen
  obtain ⟨l, r, -, hr, hL, hstart⟩ := findPeriod_pos htrue
  have hlt := hL.lt
  rcases hstart with ⟨hl0, hrise⟩ | ⟨rfl, hno⟩
  · obtain ⟨l, rfl⟩ : ∃ i, l = i + 1 := ⟨l - 1, by omega⟩
    obtain ⟨r, rfl⟩ : ∃ i, r = i + 1 := ⟨r - 1, by omega⟩
    obtain ⟨hlm, hne, hbit⟩ := (rises_range hmax).1 hrise
    have hlow : d + p ≤ l + 1 := by
      by_contra hlow
      rw [signal_low (by omega)] at hbit
      rw [Ne, signal_low (by omega)] at hne
      omega
    have hseen := ((next_window (range_lt hmax) r).1 (hL.consecutive r (by omega) (by omega))).1
    have hnext := hL.next
    rw [bit_window (range_lt hmax), decide_eq_true hseen, Bool.true_and, Ne,
      signal_second (by omega) (by have := List.mem_range.1 hseen; omega)] at hnext
    have := List.mem_range.1 hseen
    omega
  · exact hno (d + p) (by omega) (by unfold maxAutoTuneSamples; omega)
      (rises_second h0 hp hpar hmax)

/-! ## The periods without the first packet -/

theorem bit_of_mem (hks : ∀ k ∈ ks, k < 258) {i : Nat} (hi : i ∈ ks) :
    ((sampleAll d p AutoTune.new ks).pulse i).bit = signal d p i := by
  rw [bit_window hks, decide_eq_true hi, Bool.true_and]

theorem mem_of_bit (hks : ∀ k ∈ ks, k < 258) {i : Nat}
    (h : ((sampleAll d p AutoTune.new ks).pulse i).bit = true) : i ∈ ks ∧ signal d p i = true := by
  rw [bit_window hks, Bool.and_eq_true, decide_eq_true_eq] at h
  exact h

theorem rises_one (hks : ∀ k ∈ ks, k < 258) (h1 : 1 < d) (h0 : 0 ∉ ks) (hone : 1 ∈ ks) :
    Rises (sampleAll d p AutoTune.new ks) true 1 := by
  refine ⟨?_, ?_, (next_window hks 0).2 ⟨hone, .inr rfl⟩⟩
  · rw [bit_window hks, decide_eq_false h0, Bool.false_and]
    decide
  · rw [bit_of_mem hks hone]
    exact (signal_low (by omega)).2 h1

theorem rises_parity (hks : ∀ k ∈ ks, k < 258) (h1 : 1 < d) (hp : 0 < p) (hlast : d - 1 ∈ ks)
    (hd : d ∈ ks) : Rises (sampleAll d p AutoTune.new ks) false d := by
  obtain ⟨j, rfl⟩ : ∃ j, d = j + 1 := ⟨d - 1, by omega⟩
  rw [Nat.add_sub_cancel] at hlast
  refine ⟨?_, ?_, (next_window hks j).2 ⟨hd, .inl hlast⟩⟩
  · rw [Nat.add_sub_cancel, bit_of_mem hks hlast, (signal_low (by omega)).2 (by omega)]
    decide
  · rw [bit_of_mem hks hd, ← Bool.not_eq_true, signal_low (by omega)]
    omega

/-- **Without the sender's first packet** its first data packet is not counted, whatever else is
lost once the rest of the first block and the next packet were seen, in whatever order. -/
theorem periods_short (hks : ∀ k ∈ ks, k < 258) (h1 : 1 < d) (hp : 0 < p) (h0 : 0 ∉ ks)
    (hall : ∀ k, 1 ≤ k → k ≤ d + p → k ∈ ks) :
    (sampleAll d p AutoTune.new ks).findPeriod true = (d - 1 : Nat) ∧
      (sampleAll d p AutoTune.new ks).findPeriod false = p := by
  have hmax := hks (d + p) (hall _ (by omega) (Nat.le_refl _))
  have hlow : ∀ k, k < d + p → (signal d p k = false ↔ d ≤ k) := fun k hk => by
    rw [← Bool.not_eq_true, signal_low hk, Nat.not_lt]
  have hdata : Level (sampleAll d p AutoTune.new ks) true 1 d := by
    refine level_window hks h1 (fun i hi hid => hall i hi (by omega))
      (fun i _ hid => (signal_low (by omega)).2 hid) ?_
    rw [Ne, signal_low (by omega)]
    omega
  have hparity : Level (sampleAll d p AutoTune.new ks) false d (d + p) := by
    refine level_window hks (by omega) (fun i hi hid => hall i (by omega) hid)
      (fun i hi hid => (hlow i hid).2 hi) ?_
    rw [(signal_second (Nat.le_refl _) (by omega)).2 (by omega)]
    decide
  constructor
  · rw [findPeriod_eq hdata (by unfold maxAutoTuneSamples; omega)
      (.inl ⟨Nat.one_pos, rises_one hks h1 h0 (hall 1 (Nat.le_refl _) (by omega))⟩)
      fun j h1 h2 => by omega]
    omega
  · rw [findPeriod_eq hparity (by unfold maxAutoTuneSamples; omega)
      (.inl ⟨by omega, rises_parity hks h1 hp
        (hall _ (by omega) (by omega)) (hall _ (by omega) (by omega))⟩)
      fun j hj hjd hr => by
        have hbit := hr.2.1
        rw [bit_of_mem hks (hall j hj (by omega)), hlow j (by omega)] at hbit
        omega]
    omega

theorem periods_short_missing {m : Nat} (h1 : 1 < d) (hp : 0 < p) (hm : m + 1 < d + p)
    (hmax : d + p < 258) :
    ¬ (0 < (sampleAll d p AutoTune.new (List.range' 1 (m + 1))).findPeriod true ∧
      0 < (sampleAll d p AutoTune.new (List.range' 1 (m + 1))).findPeriod false) := by
  have hmem : ∀ {k : Nat}, k ∈ List.range' 1 (m + 1) ↔ 1 ≤ k ∧ k ≤ m + 1 := by
    intro k
    rw [List.mem_range'_1]
    omega
  have hks : ∀ k ∈ List.range' 1 (m + 1), k < 258 := fun k hk => by
    have := hmem.1 hk
    omega
  rintro ⟨htrue, hfalse⟩
  -- the data level ends with the first parity packet
  have hdata : d ≤ m + 1 := by
    obtain ⟨l, r, -, hr, hL, hstart⟩ := findPeriod_pos htrue
    have hlt := hL.lt
    rcases hstart with ⟨hl0, -⟩ | ⟨rfl, hno⟩
    · obtain ⟨r, rfl⟩ : ∃ i, r = i + 1 := ⟨r - 1, by omega⟩
      have hseen := ((next_window hks r).1 (hL.consecutive r (by omega) (by omega))).1
      have hnext := hL.next
      have hle := hmem.1 hseen
      rw [bit_of_mem hks hseen, Ne, signal_low (by omega)] at hnext
      omega
    · exact absurd (rises_one hks h1 (by rw [hmem]; omega) (hmem.2 ⟨by omega, by omega⟩))
        (hno 1 (Nat.le_refl _) (by decide))
  -- the parity level starts there, and its end has not been seen
  obtain ⟨l, r, -, hr, hL, hstart⟩ := findPeriod_pos hfalse
  have hlt := hL.lt
  rcases hstart with ⟨hl0, hrise⟩ | ⟨rfl, hno⟩
  · obtain ⟨l, rfl⟩ : ∃ i, l = i + 1 := ⟨l - 1, by omega⟩
    have hl := ((next_window hks l).1 hrise.2.2).1
    have hbit := hrise.2.1
    have hle := hmem.1 hl
    rw [bit_of_mem hks hl, ← Bool.not_eq_true, signal_low (by omega)] at hbit
    obtain ⟨hr', hsig⟩ := mem_of_bit hks (Bool.eq_true_of_not_eq_false hL.next)
    have := hmem.1 hr'
    rw [signal_low (by omega)] at hsig
    omega
  · exact absurd (rises_parity hks h1 hp (hmem.2 ⟨by omega, by omega⟩) (hmem.2 ⟨by omega, hdata⟩))
      (hno d (by omega) (by unfold maxAutoTuneSamples; omega))

end

/-! ## The decoder until it is tuned -/

section
variable {rs : Nat → Nat → Option (Codec UInt8)} {codec : Codec UInt8} {d p d₀ p₀ k : Nat}
  {ks : List Nat} {ps : List Bytes} {dec : FecDecoder} {a : Arrival}

theorem flagOf_eq_iff {i j d' : Nat} : flagOf d i = flagOf d' j ↔ (i < d ↔ j < d') := by
  unfold flagOf
  by_cases h : i < d <;> by_cases h' : j < d' <;>
    simp [h, h', show Faketcp.typeData ≠ Faketcp.typeFEC by decide,
      show Faketcp.typeFEC ≠ Faketcp.typeData by decide]

theorem observe_autoTune (dec : FecDecoder) (d p k : Nat) (sn : UInt32) :
    (dec.observe (flagOf d (k % (d + p))) sn).autoTune = dec.autoTune.sample (signal d p k) sn := by
  unfold FecDecoder.observe signal flagOf
  by_cases h : k % (d + p) < d
  · simp only [if_pos h, decide_eq_true h]
    rfl
  · simp only [if_neg h, decide_eq_false h]
    rfl

theorem retune_found (hd : dec.autoTune.findPeriod true = d)
    (hp : dec.autoTune.findPeriod false = p) (h0 : 0 < d) (h0' : 0 < p) (hd' : d < 256)
    (hp' : p < 256) (hne : dec.dataShards ≠ d ∨ dec.parityShards ≠ p)
    (hrs : rs d p = some codec) :
    dec.retune rs =
      { dec with
        dataShards := d, parityShards := p, shardSize := d + p, shardSet := ∅, codec
        cacheSize := d + p, shouldTune := false } := by
  unfold FecDecoder.retune
  rw [hd, hp]
  dsimp only
  rw [if_pos (by omega), if_pos (by omega), Int.toNat_natCast, Int.toNat_natCast, hrs]

/-- The decoder has kept its parameters `d₀` and `p₀` on the packets `ks` of the sender. -/
structure Untuned (rs : Nat → Nat → Option (Codec UInt8)) (d p d₀ p₀ : Nat) (ks : List Nat)
    (dec : FecDecoder) : Prop where
  inv : dec.Inv rs
  data : dec.dataShards = d₀
  parity : dec.parityShards = p₀
  tune : dec.autoTune = sampleAll d p AutoTune.new ks
  sync : dec.shouldTune = false → ∀ k ∈ ks, signal d p k = signal d₀ p₀ k

theorem Untuned.shardSize (h : Untuned rs d p d₀ p₀ ks dec) : dec.shardSize = d₀ + p₀ := by
  rw [h.inv.sized.size_eq, h.data, h.parity]

theorem untuned_new (hlim : Faketcp.ShardLimit rs) (hnew : newFECDecoder rs d₀ p₀ = some dec) :
    Untuned rs d p d₀ p₀ [] dec ∧ dec.minShardId = 0 := by
  obtain ⟨hinv, hd, hp, -, hmin, -, htune⟩ := inv_new hlim hnew
  exact ⟨⟨hinv, hd, hp, htune, fun _ k hk => absurd hk List.not_mem_nil⟩, hmin⟩

theorem Untuned.observe (h : Untuned rs d p d₀ p₀ ks dec) {sn : UInt32} (hsn : sn.toNat = k) :
    Untuned rs d p d₀ p₀ (ks ++ [k]) (dec.observe (flagOf d (k % (d + p))) sn) where
  inv := h.inv.observe _ sn
  data := h.data
  parity := h.parity
  tune := by rw [observe_autoTune, h.tune, sampleAll_concat, ← hsn, UInt32.ofNat_toNat]
  sync hs := by
    obtain ⟨hs, hfl⟩ := observe_sync.1 hs
    intro k' hk'
    rcases List.mem_append.1 hk' with hk' | hk'
    · exact h.sync hs k' hk'
    · rw [List.mem_singleton.1 hk']
      rw [hsn, h.data, h.shardSize, flagOf_eq_iff] at hfl
      exact decide_eq_decide.2 hfl

theorem Untuned.retune (h : Untuned rs d p d₀ p₀ ks dec)
    (hmiss : ¬ (0 < (sampleAll d p AutoTune.new ks).findPeriod true ∧
      0 < (sampleAll d p AutoTune.new ks).findPeriod false)) : dec.retune rs = dec := by
  rcases retune_cases rs dec with he | ⟨ds, ps, hds, hps, hd', hp', -⟩
  · exact he
  · rw [h.tune] at hds hps
    exact absurd ⟨by rw [hds]; omega, by rw [hps]; omega⟩ hmiss

theorem Untuned.received (h : Untuned rs d p d₀ p₀ (ks ++ [k]) dec) (hs : dec.shouldTune = false)
    {sn : UInt32} (hsn : sn.toNat = k) {shard : Bytes} {out : List Bytes} {dec' : FecDecoder}
    (hr : Received dec sn (flagOf d (k % (d + p))) shard out dec') :
    Untuned rs d p d₀ p₀ (ks ++ [k]) dec' ∧
      (dec'.minShardId = dec.minShardId ∨ dec'.minShardId.toNat = k / (d₀ + p₀)) := by
  have hfl : flagOf d (k % (d + p)) = flagOf dec.dataShards (sn.toNat % dec.shardSize) := by
    rw [h.data, h.shardSize, hsn, flagOf_eq_iff]
    exact decide_eq_decide.1 (h.sync hs k (by simp))
  have hinv := (h.inv.received hfl hr).1
  have hid : (dec.getShardId sn).toNat = k / (d₀ + p₀) := by
    rw [h.inv.sized.toNat_shardId, h.shardSize, hsn]
  cases hr with
  | late _ => exact ⟨h, .inl rfl⟩
  | duplicate _ _ _ => exact ⟨h, .inl rfl⟩
  | stored _ _ _ _ _ hm =>
    obtain ⟨_, _, rfl, -⟩ := hm
    exact ⟨⟨hinv, h.data, h.parity, h.tune, h.sync⟩, .inr hid⟩
  | complete _ _ _ _ _ _ hm =>
    obtain ⟨_, _, rfl, -⟩ := hm
    exact ⟨⟨hinv, h.data, h.parity, h.tune, h.sync⟩, .inr hid⟩

theorem Untuned.decode (h : Untuned rs d p d₀ p₀ ks dec) (hlaw : codec.Lawful d p) (h0 : 0 < d)
    (hpay : ∀ b ∈ ps, b.length + 8 ≤ mtuLimit) (ha : Carries codec d p ps a k) (snmp : Snmp) :
    ∃ sn out dec' snmp' shard, sn.toNat = k ∧
      dec.decode rs snmp a.pkt a.buf = .ok (out, dec', snmp') ∧
      Decoded rs dec sn (flagOf d (k % (d + p))) shard out dec' := by
  obtain ⟨hk, hx⟩ := ha
  obtain ⟨shard, hshard, hpkt⟩ := Option.map_eq_some_iff.1 hx
  obtain ⟨out, dec', snmp', hok, hdec, -⟩ :=
    decode_ok h.inv hpkt.symm (blockShard_fits hlaw h0 hpay hshard) snmp a.buf
  exact ⟨_, out, dec', snmp', shard, toNat_id hk, hok, hdec⟩

/-- **A packet with which not both periods are there** does not change the parameters. -/
theorem Untuned.step (h : Untuned rs d p d₀ p₀ ks dec) (hlaw : codec.Lawful d p) (h0 : 0 < d)
    (hpay : ∀ b ∈ ps, b.length + 8 ≤ mtuLimit) (ha : Carries codec d p ps a k)
    (hmiss : ¬ (0 < (sampleAll d p AutoTune.new (ks ++ [k])).findPeriod true ∧
      0 < (sampleAll d p AutoTune.new (ks ++ [k])).findPeriod false)) (snmp : Snmp) :
    ∃ out dec' snmp', dec.decode rs snmp a.pkt a.buf = .ok (out, dec', snmp') ∧
      Untuned rs d p d₀ p₀ (ks ++ [k]) dec' ∧
      (dec'.minShardId = dec.minShardId ∨ dec'.minShardId.toNat = k / (d₀ + p₀) ∧
        ∀ k' ∈ ks ++ [k], signal d p k' = signal d₀ p₀ k') := by
  obtain ⟨sn, out, dec', snmp', shard, hsn, hok, hdec⟩ := h.decode hlaw h0 hpay ha snmp
  have hobs := h.observe hsn
  refine ⟨out, dec', snmp', hok, ?_⟩
  cases hdec with
  | tuned _ =>
    rw [hobs.retune hmiss]
    exact ⟨hobs, .inl rfl⟩
  | received hs hr =>
    obtain ⟨hnext, hmin⟩ := hobs.received hs hsn hr
    exact ⟨hnext, hmin.imp_right fun he => ⟨he, hobs.sync hs⟩⟩

/-- **A packet with which both periods are there**, once one did not fit. -/
theorem Untuned.tuned (h : Untuned rs d p d₀ p₀ ks dec) (hlaw : codec.Lawful d p) (h0 : 0 < d)
    (hpay : ∀ b ∈ ps, b.length + 8 ≤ mtuLimit) (ha : Carries codec d p ps a k)
    (hbad : ¬ ∀ k' ∈ ks ++ [k], signal d p k' = signal d₀ p₀ k') {ds qs : Nat}
    (hds : (sampleAll d p AutoTune.new (ks ++ [k])).findPeriod true = ds)
    (hqs : (sampleAll d p AutoTune.new (ks ++ [k])).findPeriod false = qs) (hds0 : 0 < ds)
    (hqs0 : 0 < qs) (hds' : ds < 256) (hqs' : qs < 256) (hne : d₀ ≠ ds ∨ p₀ ≠ qs)
    {codec' : Codec UInt8} (hrs : rs ds qs = some codec') (snmp : Snmp) :
    ∃ out dec' snmp', dec.decode rs snmp a.pkt a.buf = .ok (out, dec', snmp') ∧ dec'.Inv rs ∧
      dec'.dataShards = ds ∧ dec'.parityShards = qs ∧ dec'.codec = codec' ∧
      dec'.shouldTune = false ∧ dec'.minShardId = dec.minShardId ∧ dec'.shardSet = ∅ := by
  obtain ⟨sn, out, dec', snmp', shard, hsn, hok, hdec⟩ := h.decode hlaw h0 hpay ha snmp
  have hobs := h.observe hsn
  refine ⟨out, dec', snmp', hok, ?_⟩
  cases hdec with
  | received hs _ => exact absurd (hobs.sync hs) hbad
  | tuned hs =>
    have hinv := hobs.inv.retune hs
    rw [retune_found (by rw [hobs.tune, hds]) (by rw [hobs.tune, hqs]) hds0 hqs0 hds' hqs'
      (by rw [hobs.data, hobs.parity]; exact hne) hrs] at hinv ⊢
    exact ⟨hinv, rfl, rfl, rfl, rfl, rfl, rfl⟩

theorem decodeAll_concat {xs : List Arrival} {a : Arrival} {dec dec1 dec2 : FecDecoder}
    {snmp snmp1 snmp2 : Snmp} {outs : List (List Bytes)} {out : List Bytes}
    (hxs : FecDecoder.decodeAll rs xs dec snmp = .ok (outs, dec1, snmp1))
    (ha : dec1.decode rs snmp1 a.pkt a.buf = .ok (out, dec2, snmp2)) :
    FecDecoder.decodeAll rs (xs ++ [a]) dec snmp = .ok (outs ++ [out], dec2, snmp2) := by
  induction xs generalizing dec snmp outs with
  | nil =>
    obtain ⟨rfl, rfl, rfl⟩ : outs = [] ∧ dec1 = dec ∧ snmp1 = snmp := by
      simpa [FecDecoder.decodeAll, eq_comm] using hxs
    rw [List.nil_append, FecDecoder.decodeAll, ha]
    rfl
  | cons x xs ih =>
    rw [FecDecoder.decodeAll] at hxs
    obtain ⟨⟨out', dec', snmp'⟩, hx, hxs⟩ := bind_ok hxs
    obtain ⟨⟨outs', dec'', snmp''⟩, hrest, hxs⟩ := bind_ok hxs
    obtain ⟨rfl, rfl, rfl⟩ : out' :: outs' = outs ∧ dec'' = dec1 ∧ snmp'' = snmp1 := by
      simpa using hxs
    rw [List.cons_append, FecDecoder.decodeAll, hx, ok_bind]
    dsimp only
    rw [ih hrest]
    rfl

theorem forall₂_concat {α β : Type} {R : α → β → Prop} {xs : List α} {l : List β} {b : β}
    (h : List.Forall₂ R xs (l ++ [b])) :
    ∃ ys a, xs = ys ++ [a] ∧ List.Forall₂ R ys l ∧ R a b := by
  have hys := List.forall₂_take_append xs l [b] h
  have ha := List.forall₂_drop_append xs l [b] h
  have hsplit := List.take_append_drop l.length xs
  generalize xs.drop l.length = last at ha hsplit
  cases ha with
  | cons ha hnil =>
    cases hnil
    exact ⟨_, _, hsplit.symm, hys, ha⟩

/-- **Packets without gaps**, as long as not both periods are there. -/
theorem decodeAll_untuned (hlaw : codec.Lawful d p) (h0 : 0 < d)
    (hpay : ∀ b ∈ ps, b.length + 8 ≤ mtuLimit) {s : Nat} (count : Nat) {arrivals : List Arrival}
    (h : Untuned rs d p d₀ p₀ [] dec)
    (harr : List.Forall₂ (Carries codec d p ps) arrivals (List.range' s count))
    (hmiss : ∀ m < count,
      ¬ (0 < (sampleAll d p AutoTune.new (List.range' s (m + 1))).findPeriod true ∧
        0 < (sampleAll d p AutoTune.new (List.range' s (m + 1))).findPeriod false))
    (snmp : Snmp) :
    ∃ outs dec' snmp', FecDecoder.decodeAll rs arrivals dec snmp = .ok (outs, dec', snmp') ∧
      Untuned rs d p d₀ p₀ (List.range' s count) dec' ∧
      (dec'.minShardId = dec.minShardId ∨ ∃ m < count, dec'.minShardId.toNat = (s + m) / (d₀ + p₀) ∧
        ∀ k ∈ List.range' s (m + 1), signal d p k = signal d₀ p₀ k) := by
  induction count generalizing arrivals with
  | zero =>
    cases harr
    exact ⟨[], dec, snmp, rfl, h, .inl rfl⟩
  | succ count ih =>
    rw [List.range'_1_concat] at harr
    obtain ⟨xs, a, rfl, hxs, ha⟩ := forall₂_concat harr
    obtain ⟨outs, dec1, snmp1, hok, h1, hmin1⟩ := ih hxs fun m hm => hmiss m (by omega)
    have hm := hmiss count (Nat.lt_succ_self _)
    rw [List.range'_1_concat] at hm
    obtain ⟨out, dec2, snmp2, hstep, h2, hmin2⟩ := h1.step hlaw h0 hpay ha hm snmp1
    rw [← List.range'_1_concat] at h2 hmin2
    refine ⟨outs ++ [out], dec2, snmp2, decodeAll_concat hok hstep, h2, ?_⟩
    rcases hmin2 with he | ⟨he, hagree⟩
    · rw [he]
      rcases hmin1 with hmin1 | ⟨m, hm, hmin1⟩
      · exact .inl hmin1
      · exact .inr ⟨m, by omega, hmin1⟩
    · exact .inr ⟨count, Nat.lt_succ_self _, he, hagree⟩

/-- **Tuning converges.** A decoder with other parameters than the sender gets its packets from the
first one on, none of them lost, and the sender's blocks are short enough for the window. It keeps
its own parameters up to packet `2 * d + p` and has the sender's with it. From then on it collects
whatever packets of the sender arrive, in any order, as a new decoder with the sender's parameters
does. -/
theorem tuning_converges (hlim : Faketcp.ShardLimit rs) (hrs : rs d p = some codec)
    (hlaw : codec.Lawful d p) (h0 : 0 < d) (hp : 0 < p) (hnew : newFECDecoder rs d₀ p₀ = some dec)
    (hne : d₀ ≠ d ∨ p₀ ≠ p) (hmax : 2 * d + p < 258) (hpay : ∀ b ∈ ps, b.length + 8 ≤ mtuLimit)
    {arrivals : List Arrival}
    (harr : List.Forall₂ (Carries codec d p ps) arrivals (List.range (2 * d + p + 1)))
    (snmp : Snmp) :
    (∀ m ≤ 2 * d + p, ∃ outs dec' snmp',
      FecDecoder.decodeAll rs (arrivals.take m) dec snmp = .ok (outs, dec', snmp') ∧
        dec'.dataShards = d₀ ∧ dec'.parityShards = p₀) ∧
      ∃ outs dec1 snmp1, FecDecoder.decodeAll rs arrivals dec snmp = .ok (outs, dec1, snmp1) ∧
        dec1.dataShards = d ∧ dec1.parityShards = p ∧ dec1.shouldTune = false ∧
        ∀ {later : List Arrival} {ks : List Nat}, List.Forall₂ (Carries codec d p ps) later ks →
          ∃ dec2 snmp2, FecDecoder.decodeAll rs later dec1 snmp1 =
              .ok ((State.run d (d + p) ks ⟨0, []⟩).1.map (List.map (dataShard d p ps)),
                dec2, snmp2) ∧
            dec2.shouldTune = false := by
  have hdec : 0 < d₀ ∧ 0 < p₀ := by
    have h := (untuned_new (d := d) (p := p) hlim hnew).1
    exact ⟨h.data ▸ h.inv.sized.data_pos, h.parity ▸ h.inv.sized.parity_pos⟩
  have hfirst : ∀ m ≤ 2 * d + p, ∃ outs dec' snmp',
      FecDecoder.decodeAll rs (arrivals.take m) dec snmp = .ok (outs, dec', snmp') ∧
        Untuned rs d p d₀ p₀ (List.range m) dec' ∧ dec'.minShardId = 0 := by
    intro m hm
    have htake := List.forall₂_take m harr
    rw [List.take_range, Nat.min_eq_left (by omega), List.range_eq_range'] at htake
    obtain ⟨h, hmin0⟩ := untuned_new hlim hnew
    obtain ⟨outs, dec', snmp', hok, h', hmin⟩ :=
      decodeAll_untuned hlaw h0 hpay m h htake (fun i hi => by
      rw [← List.range_eq_range']
      exact periods_missing h0 hp (by omega) (by omega)) snmp
    rw [← List.range_eq_range'] at h'
    refine ⟨outs, dec', snmp', hok, h', ?_⟩
    rcases hmin with he | ⟨i, -, he, hagree⟩
    · rw [he, hmin0]
    · -- in sync the packets are of the first block
      have hlt : i < d₀ + p₀ := by
        by_contra hge
        obtain ⟨hd, hp⟩ := signal_agree hdec.1 hdec.2 h0 hp fun k hk =>
          (hagree k (by rw [← List.range_eq_range', List.mem_range]; omega)).symm
        omega
      rw [Nat.zero_add, Nat.div_eq_of_lt hlt] at he
      exact UInt32.toNat_inj.1 he
  refine ⟨fun m hm => ?_, ?_⟩
  · obtain ⟨outs, dec', snmp', hok, h, -⟩ := hfirst m hm
    exact ⟨outs, dec', snmp', hok, h.data, h.parity⟩
  · obtain ⟨outs, dec', snmp', hok, h, hmin⟩ := hfirst (2 * d + p) (Nat.le_refl _)
    rw [List.range_succ] at harr
    obtain ⟨xs, a, rfl, hxs, ha⟩ := forall₂_concat harr
    rw [List.take_left' (by rw [hxs.length_eq, List.length_range])] at hok
    have hall : List.range (2 * d + p) ++ [2 * d + p] = List.range (2 * d + p + 1) :=
      List.range_succ.symm
    have hds := period_data h0 hp (Nat.le_refl (2 * d + p)) hmax
    have hqs := period_parity h0 hp (show d + p ≤ 2 * d + p by omega) hmax
    rw [← hall] at hds hqs
    obtain ⟨out, dec1, snmp1, hstep, hinv, hd1, hp1, hc1, hs1, hmin1, hset1⟩ :=
      h.tuned hlaw h0 hpay ha (fun hagree => by
        obtain ⟨hd, hp⟩ := signal_agree h0 hp hdec.1 hdec.2 fun k hk =>
          hagree k (by rw [hall, List.mem_range]; omega)
        omega) hds hqs h0 hp (by omega) (by omega) hne hrs snmp'
    have hF : Follows rs codec d p ps dec1 ⟨0, []⟩ :=
      ⟨hinv, hd1, hp1, hc1, hs1, by rw [hmin1, hmin]; rfl, [],
        by rw [FecDecoder.Holding, hset1]; exact holds_new, rfl, ⟨by simp, by simp, List.nodup_nil⟩⟩
    refine ⟨outs ++ [out], dec1, snmp1, decodeAll_concat hok hstep, hd1, hp1, hs1, fun hlater => ?_⟩
    obtain ⟨dec2, snmp2, hok2, h2⟩ := decodeAll_follows hlaw hpay hlater hF snmp1
    exact ⟨dec2, snmp2, hok2, h2.sync⟩

end

/-- A decoder for two data shards, and a sender with one: the fourth packet tunes the decoder. -/
theorem tuning_converges_rs11 :
    ∃ dec outs dec1 snmp1, newFECDecoder Faketcp.newRs3 2 1 = some dec ∧
      FecDecoder.decodeAll Faketcp.newRs3 ((List.range 4).map fun k =>
          ⟨Slice.ofList ((streamPacket (Faketcp.rs1 1) 1 1 [[7], [8, 9]] k).getD []), PoolBuf.new⟩)
        dec newSnmp = .ok (outs, dec1, snmp1) ∧
      dec1.dataShards = 1 ∧ dec1.parityShards = 1 := by
  obtain ⟨dec, hnew⟩ : ∃ dec, newFECDecoder Faketcp.newRs3 2 1 = some dec := ⟨_, rfl⟩
  have harr : List.Forall₂ (Carries (Faketcp.rs1 1) 1 1 [[7], [8, 9]])
      ((List.range 4).map fun k =>
        ⟨Slice.ofList ((streamPacket (Faketcp.rs1 1) 1 1 [[7], [8, 9]] k).getD []), PoolBuf.new⟩)
      (List.range (2 * 1 + 1 + 1)) := by
    rw [List.forall₂_map_left_iff, List.forall₂_same]
    intro k hk
    have hlt : k < 4 := List.mem_range.1 hk
    have hx : ∀ k < 4, streamPacket (Faketcp.rs1 1) 1 1 [[7], [8, 9]] k =
        some ((streamPacket (Faketcp.rs1 1) 1 1 [[7], [8, 9]] k).getD []) := by decide +kernel
    refine ⟨Nat.lt_trans hlt (by decide), ?_⟩
    rw [Slice.data_ofList]
    exact hx k hlt
  obtain ⟨-, outs, dec1, snmp1, hok, hd, hp, -⟩ :=
    tuning_converges Faketcp.shardLimit_rs3 (show _ = some (Faketcp.rs1 1) from rfl)
      (Faketcp.rs1_lawful 1) (by decide) (by decide) hnew (by decide) (by decide) (by decide) harr
      newSnmp
  exact ⟨dec, outs, dec1, snmp1, hnew, hok, hd, hp⟩

section
variable {rs : Nat → Nat → Option (Codec UInt8)} {codec codec' : Codec UInt8} {d p d₀ p₀ : Nat}
  {ps : List Bytes} {dec : FecDecoder}

/-- **A lost first packet misleads the tuner.** The sender has more than one data shard, and its
blocks fit the tuner's window; the decoder has neither its parameters nor those with one data shard
less. It gets the sender's packets from the second one on, none of them lost. With the first packet
of the second block it sets itself to one data shard less than the sender has, and takes itself to
be in sync. -/
theorem first_packet_lost (hlim : Faketcp.ShardLimit rs) (hlaw : codec.Lawful d p) (h1 : 1 < d)
    (hp : 0 < p) (hmax : d + p < 258) (hnew : newFECDecoder rs d₀ p₀ = some dec)
    (hne : d₀ ≠ d ∨ p₀ ≠ p) (hne' : d₀ ≠ d - 1 ∨ p₀ ≠ p) (hrs : rs (d - 1) p = some codec')
    (hpay : ∀ b ∈ ps, b.length + 8 ≤ mtuLimit) {arrivals : List Arrival}
    (harr : List.Forall₂ (Carries codec d p ps) arrivals (List.range' 1 (d + p))) (snmp : Snmp) :
    ∃ outs dec1 snmp1, FecDecoder.decodeAll rs arrivals dec snmp = .ok (outs, dec1, snmp1) ∧
      dec1.dataShards = d - 1 ∧ dec1.parityShards = p ∧ dec1.shouldTune = false := by
  obtain ⟨c, hc⟩ : ∃ c, d + p = c + 1 := ⟨d + p - 1, by omega⟩
  obtain ⟨h, -⟩ := untuned_new (d := d) (p := p) hlim hnew
  have h0' : 0 < d₀ := h.data ▸ h.inv.sized.data_pos
  have hp' : 0 < p₀ := h.parity ▸ h.inv.sized.parity_pos
  rw [hc, List.range'_1_concat] at harr
  obtain ⟨xs, a, rfl, hxs, ha⟩ := forall₂_concat harr
  obtain ⟨outs, dec', snmp', hok, h', -⟩ := decodeAll_untuned hlaw (by omega) hpay c h hxs
    (fun m hm => periods_short_missing h1 hp (by omega) hmax) snmp
  have hall : List.range' 1 c ++ [1 + c] = List.range' 1 (d + p) := by rw [hc, List.range'_1_concat]
  have hmem : ∀ {k : Nat}, k ∈ List.range' 1 (d + p) ↔ 1 ≤ k ∧ k ≤ d + p := by
    intro k
    rw [List.mem_range'_1]
    omega
  have hlt : ∀ k ∈ List.range' 1 (d + p), k < 258 := fun k hk => by
    have := hmem.1 hk
    omega
  obtain ⟨hds, hqs⟩ :=
    periods_short hlt h1 hp (by rw [hmem]; omega) fun k hk hk' => hmem.2 ⟨hk, hk'⟩
  rw [← hall] at hds hqs
  obtain ⟨out, dec1, snmp1, hstep, -, hd1, hp1, -, hs1, -⟩ :=
    h'.tuned hlaw (by omega) hpay ha (fun hagree => by
      -- packet 0 is a data packet for both
      obtain ⟨hd, hp⟩ := signal_agree (d := d) (p := p) (by omega) hp h0' hp' fun k hk => by
        rcases Nat.eq_zero_or_pos k with rfl | hk0
        · rw [(signal_low (by omega)).2 (by omega), (signal_low (by omega)).2 h0']
        · exact hagree k (by rw [hall]; exact hmem.2 ⟨hk0, hk⟩)
      omega) hds hqs (by omega) hp (by omega) (by omega) hne' hrs snmp'
  exact ⟨outs ++ [out], dec1, snmp1, decodeAll_concat hok hstep, hd1, hp1, hs1⟩

end

/-- Packets 1 to 3 of a sender with two data shards: a decoder with two parity shards sets itself to
one data shard. -/
theorem first_packet_lost_rs21 :
    ∃ dec outs dec1 snmp1, newFECDecoder Faketcp.newRs3 1 2 = some dec ∧
      FecDecoder.decodeAll Faketcp.newRs3 ((List.range' 1 3).map fun k =>
          ⟨Slice.ofList ((streamPacket Faketcp.rs21 2 1 [[7], [8, 9], [5], [6]] k).getD []),
            PoolBuf.new⟩)
        dec newSnmp = .ok (outs, dec1, snmp1) ∧
      dec1.dataShards = 1 ∧ dec1.parityShards = 1 ∧ dec1.shouldTune = false := by
  obtain ⟨dec, hnew⟩ : ∃ dec, newFECDecoder Faketcp.newRs3 1 2 = some dec := ⟨_, rfl⟩
  have harr : List.Forall₂ (Carries Faketcp.rs21 2 1 [[7], [8, 9], [5], [6]])
      ((List.range' 1 3).map fun k =>
        ⟨Slice.ofList ((streamPacket Faketcp.rs21 2 1 [[7], [8, 9], [5], [6]] k).getD []),
          PoolBuf.new⟩)
      (List.range' 1 (2 + 1)) := by
    rw [List.forall₂_map_left_iff, List.forall₂_same]
    intro k hk
    have hlt : k < 4 := (List.mem_range'_1.1 hk).2
    have hx : ∀ k < 4, streamPacket Faketcp.rs21 2 1 [[7], [8, 9], [5], [6]] k =
        some ((streamPacket Faketcp.rs21 2 1 [[7], [8, 9], [5], [6]] k).getD []) := by
      decide +kernel
    refine ⟨Nat.lt_trans hlt (by decide), ?_⟩
    rw [Slice.data_ofList]
    exact hx k hlt
  obtain ⟨outs, dec1, snmp1, hok, hd, hp, htune⟩ :=
    first_packet_lost Faketcp.shardLimit_rs3 Faketcp.rs21_lawful (by decide) (by decide)
      (by decide) hnew (by decide) (by decide) (show _ = some (Faketcp.rs1 1) from rfl) (by decide)
      harr newSnmp
  exact ⟨dec, outs, dec1, snmp1, hnew, hok, hd, hp, htune⟩

end Fecv2
