import TcpRaw.FecV2.AutoTune

/-!
# What the tuner finds

`Rises` and `Falls` are the two kinds of edges, `Level` is a level of consecutive pulses up to its
falling edge. `findPeriod_pos`: a period is the length of a level that starts at the first rising
edge of the window or, if the window has none, in slot 0. `findPeriod_eq` is the converse.

`signal d p` is the signal of a sender with `d` data and `p` parity shards. A level between two of
its edges has `d` or `p` pulses (`signal_start`, `signal_end`). `OfSignal` are the windows that any
samples of the signal give, in any order, repeated or with gaps, once slot 0 holds one.
`autoTune_sound`: the period of such a window is the number of shards of the sender, or the level is
cut off at slot 0 and no rising edge is in the window.
-/

namespace Fecv2

/-! ## Edges and levels -/

section
variable {tune : AutoTune} {bit : Bool}

/-- The left edge that `leftEdge` looks for, at slot `i`. -/
def Rises (tune : AutoTune) (bit : Bool) (i : Nat) : Prop :=
  (tune.pulse (i - 1)).bit ≠ bit ∧ (tune.pulse i).bit = bit ∧
    (tune.pulse (i - 1)).seq + 1 = (tune.pulse i).seq

/-- The pulses of slots `l` to `r` are consecutive, and slot `r` is the first after slot `l` where
the level `bit` ends. -/
structure Falls (tune : AutoTune) (bit : Bool) (l r : Nat) : Prop where
  lt : l < r
  consecutive : ∀ i, l ≤ i → i < r → (tune.pulse i).seq + 1 = (tune.pulse (i + 1)).seq
  last : (tune.pulse (r - 1)).bit = bit
  next : (tune.pulse r).bit ≠ bit
  first : ∀ i, l ≤ i → i + 1 < r → (tune.pulse i).bit = bit → (tune.pulse (i + 1)).bit = bit

/-- The slots from `l` up to `r` hold consecutive pulses of the level `bit`, and slot `r` the next
pulse, of the other level. -/
structure Level (tune : AutoTune) (bit : Bool) (l r : Nat) : Prop where
  lt : l < r
  consecutive : ∀ i, l ≤ i → i < r → (tune.pulse i).seq + 1 = (tune.pulse (i + 1)).seq
  level : ∀ i, l ≤ i → i < r → (tune.pulse i).bit = bit
  next : (tune.pulse r).bit ≠ bit

instance (tune : AutoTune) (bit : Bool) (i : Nat) : Decidable (Rises tune bit i) :=
  inferInstanceAs (Decidable (_ ∧ _ ∧ _))

theorem leftEdge_succ (count idx : Nat) :
    tune.leftEdge bit (count + 1) idx (tune.pulse (idx - 1)) =
      if Rises tune bit idx then idx else tune.leftEdge bit count (idx + 1) (tune.pulse idx) :=
  rfl

/-- **The left edge loop**: the first rising edge, or 0. -/
theorem leftEdge_spec (tune : AutoTune) (bit : Bool) : ∀ (count idx : Nat), 0 < idx →
    (∃ i, idx ≤ i ∧ i < idx + count ∧ Rises tune bit i ∧
        (∀ j, idx ≤ j → j < i → ¬ Rises tune bit j) ∧
        tune.leftEdge bit count idx (tune.pulse (idx - 1)) = i) ∨
      ((∀ j, idx ≤ j → j < idx + count → ¬ Rises tune bit j) ∧
        tune.leftEdge bit count idx (tune.pulse (idx - 1)) = 0)
  | 0, idx, _ => .inr ⟨fun j h1 h2 => absurd h2 (by omega), rfl⟩
  | count + 1, idx, h0 => by
    rw [leftEdge_succ]
    by_cases h : Rises tune bit idx
    · rw [if_pos h]
      exact .inl ⟨idx, Nat.le_refl _, by omega, h, fun j h1 h2 => absurd h2 (by omega), rfl⟩
    have hnot : ∀ j, j = idx → ¬ Rises tune bit j := fun j hj => hj ▸ h
    have ih := leftEdge_spec tune bit count (idx + 1) (Nat.succ_pos _)
    rw [Nat.add_sub_cancel] at ih
    rw [if_neg h]
    rcases ih with ⟨i, h1, h2, hr, hfirst, he⟩ | ⟨hnone, he⟩
    · refine .inl ⟨i, by omega, by omega, hr, fun j hj hji => ?_, he⟩
      rcases Nat.lt_or_ge idx j with hlt | hge
      · exact hfirst j hlt hji
      · exact hnot j (by omega)
    · refine .inr ⟨fun j hj hjc => ?_, he⟩
      rcases Nat.lt_or_ge idx j with hlt | hge
      · exact hnone j hlt (by omega)
      · exact hnot j (by omega)

theorem rightEdge_falls : ∀ (count idx r : Nat), 0 < idx → 0 < r →
    tune.rightEdge bit count idx (tune.pulse (idx - 1)) = some r →
    Falls tune bit (idx - 1) r ∧ r < idx + count
  | 0, _, r, _, hr, h => by
    rw [AutoTune.rightEdge, Option.some.injEq] at h
    omega
  | count + 1, idx, r, h0, hr, h => by
    rw [AutoTune.rightEdge] at h
    split at h
    · rename_i hseq
      have hidx : idx - 1 + 1 = idx := by omega
      split at h
      · rename_i hfall
        obtain rfl : idx = r := Option.some.inj h
        refine ⟨⟨by omega, fun i h1 h2 => ?_, hfall.1, hfall.2, fun i h1 h2 => by omega⟩, by omega⟩
        obtain rfl : i = idx - 1 := by omega
        rw [hidx]
        exact hseq
      · rename_i hno
        obtain ⟨hF, hlt⟩ := rightEdge_falls count (idx + 1) r (Nat.succ_pos _) hr h
        rw [Nat.add_sub_cancel] at hF
        refine ⟨⟨by have := hF.lt; omega, fun i h1 h2 => ?_, hF.last, hF.next,
          fun i h1 h2 hb => ?_⟩, by omega⟩
        · rcases Nat.lt_or_ge i idx with hi | hi
          · obtain rfl : i = idx - 1 := by omega
            rw [hidx]
            exact hseq
          · exact hF.consecutive i hi h2
        · rcases Nat.lt_or_ge i idx with hi | hi
          · obtain rfl : i = idx - 1 := by omega
            rw [hidx]
            by_contra hne
            exact hno ⟨hb, hne⟩
          · exact hF.first i hi h2 hb
    · cases h

theorem rightEdge_level : ∀ (count idx r : Nat), 0 < idx → Level tune bit (idx - 1) r →
    r < idx + count → tune.rightEdge bit count idx (tune.pulse (idx - 1)) = some r
  | 0, idx, r, _, hL, hr => by
    have := hL.lt
    omega
  | count + 1, idx, r, h0, hL, hr => by
    have hlt := hL.lt
    have hidx : idx - 1 + 1 = idx := by omega
    have hseq := hL.consecutive (idx - 1) (Nat.le_refl _) hlt
    rw [hidx] at hseq
    rw [AutoTune.rightEdge, if_pos hseq]
    by_cases he : idx = r
    · subst he
      rw [if_pos ⟨hL.level _ (Nat.le_refl _) hlt, hL.next⟩]
    · rw [if_neg fun hfall => hfall.2 (hL.level idx (by omega) (by omega))]
      refine rightEdge_level count (idx + 1) r (Nat.succ_pos _) ?_ (by omega)
      rw [Nat.add_sub_cancel]
      exact ⟨by omega, fun i h1 h2 => hL.consecutive i (by omega) h2,
        fun i h1 h2 => hL.level i (by omega) h2, hL.next⟩

/-- From a pulse of the level on, the search for the right edge runs along the level. -/
theorem Falls.level {l r : Nat} (h : Falls tune bit l r) (hl : (tune.pulse l).bit = bit) :
    Level tune bit l r := by
  refine ⟨h.lt, h.consecutive, fun i h1 h2 => ?_, h.next⟩
  induction i with
  | zero =>
    obtain rfl : l = 0 := by omega
    exact hl
  | succ i ih =>
    rcases Nat.lt_or_ge i l with hi | hi
    · obtain rfl : l = i + 1 := by omega
      exact hl
    · exact h.first i hi h2 (ih hi (by omega))

/-- Without a rising edge the level before a falling edge reaches back to where the search
starts. -/
theorem Falls.level_start {l r : Nat} (h : Falls tune bit l r)
    (hno : ∀ j, 1 ≤ j → j < r → ¬ Rises tune bit j) : (tune.pulse l).bit = bit := by
  by_contra hl
  -- then no pulse before the falling edge is of the level, by induction from `l` on
  have hall : ∀ i, l ≤ i → i < r → (tune.pulse i).bit ≠ bit := by
    intro i
    induction i with
    | zero =>
      intro h1 h2
      obtain rfl : l = 0 := by omega
      exact hl
    | succ i ih =>
      intro h1 h2 hb
      rcases Nat.lt_or_ge i l with hi | hi
      · obtain rfl : l = i + 1 := by omega
        exact hl hb
      · exact hno (i + 1) (by omega) h2
          ⟨ih hi (by omega), hb, h.consecutive i hi (by omega)⟩
  have hlt := h.lt
  exact hall (r - 1) (by omega) (by omega) h.last

/-- **A period that is found**: the length of a level from the window's first rising edge on or, if
it has none, from slot 0 on. -/
theorem findPeriod_pos (h : 0 < tune.findPeriod bit) :
    ∃ l r : Nat, tune.findPeriod bit = (r : Int) - l ∧ r < maxAutoTuneSamples ∧ Level tune bit l r ∧
      (0 < l ∧ Rises tune bit l ∨
        l = 0 ∧ ∀ j, 1 ≤ j → j < maxAutoTuneSamples → ¬ Rises tune bit j) := by
  have hspec := leftEdge_spec tune bit (maxAutoTuneSamples - 1) 1 Nat.one_pos
  rw [Nat.sub_self] at hspec
  unfold AutoTune.findPeriod at h ⊢
  generalize tune.leftEdge bit (maxAutoTuneSamples - 1) 1 (tune.pulse 0) = l at *
  dsimp only at h ⊢
  cases hr : tune.rightEdge bit (maxAutoTuneSamples - (l + 1)) (l + 1) (tune.pulse l) with
  | none =>
    rw [hr] at h
    dsimp only at h
    omega
  | some r =>
    rw [hr] at h
    dsimp only at h ⊢
    obtain ⟨hF, hlt⟩ := rightEdge_falls _ (l + 1) r (Nat.succ_pos _) (by omega) hr
    rw [Nat.add_sub_cancel] at hF
    unfold maxAutoTuneSamples at hspec hlt ⊢
    rcases hspec with ⟨i, h1, h2, hrise, -, rfl⟩ | ⟨hno, rfl⟩
    · exact ⟨l, r, rfl, by omega, hF.level hrise.2.1, .inl ⟨by omega, hrise⟩⟩
    · have hstart := hF.level_start fun j h1 h2 => hno j h1 (by omega)
      exact ⟨0, r, rfl, by omega, hF.level hstart, .inr ⟨rfl, fun j h1 h2 => hno j h1 (by omega)⟩⟩

/-- **The period of the first level** of a window that ends in the window. -/
theorem findPeriod_eq {l r : Nat} (hL : Level tune bit l r) (hr : r < maxAutoTuneSamples)
    (hl : 0 < l ∧ Rises tune bit l ∨
      l = 0 ∧ ∀ j, 1 ≤ j → j < maxAutoTuneSamples → ¬ Rises tune bit j)
    (hfirst : ∀ j, 1 ≤ j → j < l → ¬ Rises tune bit j) :
    tune.findPeriod bit = (r : Int) - l := by
  have hlt := hL.lt
  have hspec := leftEdge_spec tune bit (maxAutoTuneSamples - 1) 1 Nat.one_pos
  rw [Nat.sub_self] at hspec
  have hle : tune.leftEdge bit (maxAutoTuneSamples - 1) 1 (tune.pulse 0) = l := by
    unfold maxAutoTuneSamples at *
    rcases hspec with ⟨i, h1, h2, hrise, hmin, he⟩ | ⟨hno, he⟩
    · rw [he]
      rcases hl with ⟨h0, hrl⟩ | ⟨rfl, hno⟩
      · rcases Nat.lt_trichotomy i l with hil | hil | hil
        · exact absurd hrise (hfirst i h1 hil)
        · exact hil
        · exact absurd hrl (hmin l h0 hil)
      · exact absurd hrise (hno i h1 (by omega))
    · rw [he]
      rcases hl with ⟨h0, hrl⟩ | ⟨rfl, -⟩
      · exact absurd hrl (hno l h0 (by omega))
      · rfl
  unfold AutoTune.findPeriod
  dsimp only
  have hright := rightEdge_level (maxAutoTuneSamples - (l + 1)) (l + 1) r (Nat.succ_pos _)
    (by rw [Nat.add_sub_cancel]; exact hL) (by omega)
  rw [Nat.add_sub_cancel] at hright
  rw [hle, hright]

end

/-! ## The signal of a sender -/

/-- Packet `k` of a sender with blocks of `d` data and `p` parity shards is a data packet. -/
def signal (d p k : Nat) : Bool := decide (k % (d + p) < d)

/-- Where a level of the signal starts in a block. -/
def levelStart (d : Nat) (bit : Bool) : Nat := if bit then 0 else d

/-- Where a level of the signal ends in a block. -/
def levelEnd (d p : Nat) (bit : Bool) : Nat := if bit then d else d + p

/-- The number of shards of a kind in a block. -/
def shardsOf (d p : Nat) (bit : Bool) : Nat := if bit then d else p

theorem levelStart_add (d p : Nat) (bit : Bool) :
    levelStart d bit + shardsOf d p bit = levelEnd d p bit := by
  cases bit
  · rfl
  · exact Nat.zero_add d

section
variable {d p : Nat} {bit : Bool}

theorem add_mod_of_lt {s i n : Nat} (h : s % n + i < n) : (s + i) % n = s % n + i := by
  rw [← Nat.mod_add_mod, Nat.mod_eq_of_lt h]

theorem signal_eq_true {k : Nat} : signal d p k = true ↔ k % (d + p) < d := decide_eq_true_iff

theorem signal_eq_false {k : Nat} : signal d p k = false ↔ d ≤ k % (d + p) := by
  rw [signal, decide_eq_false_iff_not, Nat.not_lt]

theorem levelStart_le {k : Nat} (h : signal d p k = bit) : levelStart d bit ≤ k % (d + p) := by
  cases bit
  · exact signal_eq_false.1 h
  · exact Nat.zero_le _

theorem signal_start (h0 : 0 < d) (hp : 0 < p) {s : Nat} (hs : signal d p (s + 1) = bit)
    (hprev : signal d p s ≠ bit) : (s + 1) % (d + p) = levelStart d bit := by
  have hlt := Nat.mod_lt s (show 0 < d + p by omega)
  have hstep : (s + 1) % (d + p) = s % (d + p) + 1 ∨
      s % (d + p) + 1 = d + p ∧ (s + 1) % (d + p) = 0 := by
    rcases Nat.lt_or_ge (s % (d + p) + 1) (d + p) with h | h
    · exact .inl (add_mod_of_lt h)
    · have he : s % (d + p) + 1 = d + p := by omega
      refine .inr ⟨he, ?_⟩
      rw [← Nat.mod_add_mod, he, Nat.mod_self]
  cases bit
  · rw [signal_eq_false] at hs
    rw [ne_eq, Bool.not_eq_false, signal_eq_true] at hprev
    show _ = d
    omega
  · rw [signal_eq_true] at hs
    rw [ne_eq, Bool.not_eq_true, signal_eq_false] at hprev
    show _ = 0
    omega

theorem signal_end (h0 : 0 < d) (hp : 0 < p) {s len : Nat} (hlen : 0 < len)
    (hlevel : ∀ i < len, signal d p (s + i) = bit) (hnext : signal d p (s + len) ≠ bit) :
    s % (d + p) + len = levelEnd d p bit := by
  have hlt := Nat.mod_lt s (show 0 < d + p by omega)
  have hs := hlevel 0 hlen
  rw [Nat.add_zero] at hs
  -- it can neither go on beyond the end nor stop before it
  rcases Nat.lt_trichotomy (s % (d + p) + len) (levelEnd d p bit) with h | h | h
  · refine absurd ?_ hnext
    cases bit
    · rw [signal_eq_false] at hs ⊢
      unfold levelEnd at h
      rw [add_mod_of_lt (by simpa using h)]
      omega
    · rw [signal_eq_true] at hs ⊢
      unfold levelEnd at h
      rw [if_pos rfl] at h
      rw [add_mod_of_lt (by omega)]
      exact h
  · exact h
  · cases bit
    · have hwrap : (s + (d + p - s % (d + p))) % (d + p) = 0 := by
        rw [← Nat.mod_add_mod, show s % (d + p) + (d + p - s % (d + p)) = d + p by omega,
          Nat.mod_self]
      have hlast :=
        hlevel (d + p - s % (d + p)) (by unfold levelEnd at h; rw [if_neg (by simp)] at h; omega)
      rw [signal_eq_false, hwrap] at hlast
      omega
    · unfold levelEnd at h
      rw [if_pos rfl] at h
      rw [signal_eq_true] at hs
      have hlast := hlevel (d - s % (d + p)) (by omega)
      rw [signal_eq_true, add_mod_of_lt (by omega)] at hlast
      omega

end

/-! ## Windows of the signal -/

/-- A pulse of the signal, before the sequence ids overflow. -/
structure Pulse.Of (d p : Nat) (q : Pulse) : Prop where
  bit : q.bit = signal d p q.seq.toNat
  lt : q.seq.toNat + 1 < 2 ^ 32

/-- The slots of the window hold pulses of the signal, or nothing yet; slot 0 holds one. -/
structure OfSignal (d p : Nat) (tune : AutoTune) : Prop where
  first : (tune.pulse 0).Of d p
  slot : ∀ i < maxAutoTuneSamples, tune.pulse i = Pulse.zero ∨
    (tune.pulse i).Of d p ∧ (tune.pulse i).seq.toNat % 258 = i

section
variable {d p : Nat} {tune : AutoTune} {bit : Bool}

theorem toNat_succ {q : Pulse} (h : q.Of d p) : (q.seq + 1).toNat = q.seq.toNat + 1 := by
  rw [UInt32.toNat_add]
  exact Nat.mod_eq_of_lt h.lt

/-- The pulse after one of the signal, if it is the next one, is of the signal. -/
theorem OfSignal.next (h : OfSignal d p tune) {i : Nat} (hi : i + 1 < maxAutoTuneSamples)
    (hq : (tune.pulse i).Of d p) (hseq : (tune.pulse i).seq + 1 = (tune.pulse (i + 1)).seq) :
    (tune.pulse (i + 1)).Of d p ∧
      (tune.pulse (i + 1)).seq.toNat = (tune.pulse i).seq.toNat + 1 := by
  have hnat : (tune.pulse (i + 1)).seq.toNat = (tune.pulse i).seq.toNat + 1 := by
    rw [← hseq, toNat_succ hq]
  rcases h.slot (i + 1) hi with hz | ⟨hof, -⟩
  · rw [hz] at hnat
    exact absurd hnat (Nat.succ_ne_zero _).symm
  · exact ⟨hof, hnat⟩

theorem OfSignal.run (h : OfSignal d p tune) {l r : Nat} (hr : r < maxAutoTuneSamples)
    (hl : (tune.pulse l).Of d p)
    (hseq : ∀ i, l ≤ i → i < r → (tune.pulse i).seq + 1 = (tune.pulse (i + 1)).seq) :
    ∀ i, l + i ≤ r → (tune.pulse (l + i)).bit = signal d p ((tune.pulse l).seq.toNat + i) := by
  have hrun : ∀ i, l + i ≤ r → (tune.pulse (l + i)).Of d p ∧
      (tune.pulse (l + i)).seq.toNat = (tune.pulse l).seq.toNat + i := by
    intro i
    induction i with
    | zero => exact fun _ => ⟨hl, rfl⟩
    | succ i ih =>
      intro hi
      obtain ⟨hof, hnat⟩ := ih (by omega)
      obtain ⟨hof', hnat'⟩ := h.next (i := l + i) (by omega) hof (hseq _ (by omega) (by omega))
      rw [← Nat.add_assoc]
      exact ⟨hof', by omega⟩
  intro i hi
  obtain ⟨hof, hnat⟩ := hrun i hi
  rw [hof.bit, hnat]

theorem OfSignal.rise (h : OfSignal d p tune) {l : Nat} (h0 : 0 < l) (hl : l < maxAutoTuneSamples)
    (hrise : Rises tune bit l) :
    (tune.pulse l).Of d p ∧ ∃ s, (tune.pulse l).seq.toNat = s + 1 ∧ signal d p s ≠ bit := by
  obtain ⟨hne, -, hseq⟩ := hrise
  have hidx : l - 1 + 1 = l := by omega
  have hprev : (tune.pulse (l - 1)).Of d p := by
    rcases h.slot (l - 1) (by omega) with hz | ⟨hof, -⟩
    · -- the pulse after a slot that holds nothing has sequence id 1, so it is in slot 1
      rw [hz] at hseq
      rcases h.slot l hl with hzl | ⟨-, hmod⟩
      · rw [hzl] at hseq
        exact absurd hseq (by decide)
      · rw [← hseq] at hmod
        obtain rfl : 1 = l := hmod
        exact h.first
    · exact hof
  have hn := h.next (i := l - 1) (by omega) hprev (by rw [hidx]; exact hseq)
  rw [hidx] at hn
  refine ⟨hn.1, _, hn.2, ?_⟩
  rw [← hprev.bit]
  exact hne

theorem OfSignal.level_end (h : OfSignal d p tune) (h0 : 0 < d) (hp : 0 < p) {l r : Nat}
    (hr : r < maxAutoTuneSamples) (hL : Level tune bit l r) (hl : (tune.pulse l).Of d p) :
    (tune.pulse l).seq.toNat % (d + p) + (r - l) = levelEnd d p bit := by
  have hlt := hL.lt
  have hrun := h.run hr hl hL.consecutive
  refine signal_end h0 hp (by omega) (fun i hi => ?_) ?_
  · rw [← hrun i (by omega)]
    exact hL.level _ (by omega) (by omega)
  · rw [← hrun (r - l) (by omega), show l + (r - l) = r by omega]
    exact hL.next

/-- **What a period of a window of the signal is**: the number of shards of its kind, or what is
left of a level that slot 0 cuts off, where the window has no rising edge. -/
theorem OfSignal.findPeriod (h : OfSignal d p tune) (h0 : 0 < d) (hp : 0 < p)
    (hpos : 0 < tune.findPeriod bit) :
    tune.findPeriod bit = shardsOf d p bit ∨
      (levelStart d bit ≤ (tune.pulse 0).seq.toNat % (d + p) ∧
        ((tune.pulse 0).seq.toNat % (d + p) : Nat) + tune.findPeriod bit = levelEnd d p bit ∧
        ∀ j, 1 ≤ j → j < maxAutoTuneSamples → ¬ Rises tune bit j) := by
  obtain ⟨l, r, he, hr, hL, hstart⟩ := findPeriod_pos hpos
  have hlt := hL.lt
  rw [he]
  rcases hstart with ⟨hl0, hrise⟩ | ⟨rfl, hno⟩
  · obtain ⟨hof, s, hs, hprev⟩ := h.rise hl0 (by omega) hrise
    have hend := h.level_end h0 hp hr hL hof
    have hbit : signal d p (s + 1) = bit := by
      rw [← hs, ← hof.bit]
      exact hrise.2.1
    rw [hs, signal_start h0 hp hbit hprev, ← levelStart_add] at hend
    left
    omega
  · have hend := h.level_end h0 hp hr hL h.first
    have hbit := hL.level 0 (Nat.le_refl _) hlt
    rw [h.first.bit] at hbit
    refine .inr ⟨levelStart_le hbit, ?_, hno⟩
    rw [← hend]
    omega

/-! ## Any samples of the signal -/

/-- The tuner after it has seen the packets `ks` of the sender, in this order. -/
def sampleAll (d p : Nat) (tune : AutoTune) (ks : List Nat) : AutoTune :=
  ks.foldl (fun tune k => tune.sample (signal d p k) (UInt32.ofNat k)) tune

theorem sampleAll_cons (d p : Nat) (tune : AutoTune) (k : Nat) (ks : List Nat) :
    sampleAll d p tune (k :: ks) =
      sampleAll d p (tune.sample (signal d p k) (UInt32.ofNat k)) ks :=
  rfl

/-- What every sample of the signal keeps: a slot that is written holds a pulse of the signal. -/
def Slots (d p : Nat) (tune : AutoTune) : Prop :=
  ∀ i, tune.pulse i = Pulse.zero ∨ (tune.pulse i).Of d p ∧ (tune.pulse i).seq.toNat % 258 = i

theorem slots_new (d p : Nat) : Slots d p AutoTune.new := fun i => .inl (AutoTune.pulse_new i)

theorem pulse_of {k : Nat} (hk : k + 1 < 2 ^ 32) :
    Pulse.Of d p ⟨signal d p k, UInt32.ofNat k⟩ := by
  have hnat : (UInt32.ofNat k).toNat = k := UInt32.toNat_ofNat_of_lt' (Nat.lt_of_succ_lt hk)
  exact ⟨by rw [hnat], by rw [hnat]; exact hk⟩

theorem Slots.sample (h : Slots d p tune) {k : Nat} (hk : k + 1 < 2 ^ 32) :
    Slots d p (tune.sample (signal d p k) (UInt32.ofNat k)) := by
  intro i
  rcases tune.pulse_sample_cases (signal d p k) (UInt32.ofNat k) i with he | ⟨hi, he⟩
  · rw [he]
    exact h i
  · rw [he]
    exact .inr ⟨pulse_of hk, hi.symm⟩

theorem first_sample (h : (tune.pulse 0).Of d p) {k : Nat} (hk : k + 1 < 2 ^ 32) :
    ((tune.sample (signal d p k) (UInt32.ofNat k)).pulse 0).Of d p := by
  rcases tune.pulse_sample_cases (signal d p k) (UInt32.ofNat k) 0 with he | ⟨-, he⟩
  · rw [he]
    exact h
  · rw [he]
    exact pulse_of hk

/-- The sender's first packet gives slot 0 a pulse of the signal, if it has none. -/
theorem first_sample_zero (h : Slots d p tune) :
    ((tune.sample (signal d p 0) (UInt32.ofNat 0)).pulse 0).Of d p := by
  rcases h 0 with hz | ⟨hof, -⟩
  · rw [AutoTune.pulse_sample (by rw [hz]; exact Nat.le_refl _) (by rw [hz]; exact Nat.zero_le _)
      (by rw [hz]; decide), if_pos (by decide)]
    exact pulse_of (by decide)
  · exact first_sample hof (by decide)

theorem sampleAll_slots : ∀ {ks : List Nat} {tune : AutoTune}, (∀ k ∈ ks, k + 1 < 2 ^ 32) →
    Slots d p tune → Slots d p (sampleAll d p tune ks)
  | [], _, _, h => h
  | k :: ks, _, hks, h => by
    rw [sampleAll_cons]
    exact sampleAll_slots (fun k' hk' => hks k' (by simp [hk'])) (h.sample (hks k (by simp)))

theorem sampleAll_first : ∀ {ks : List Nat} {tune : AutoTune}, (∀ k ∈ ks, k + 1 < 2 ^ 32) →
    Slots d p tune → (tune.pulse 0).Of d p ∨ 0 ∈ ks → ((sampleAll d p tune ks).pulse 0).Of d p
  | [], _, _, _, hfirst => by
    rcases hfirst with h | h
    · exact h
    · cases h
  | k :: ks, tune, hks, h, hfirst => by
    have hk := hks k (by simp)
    rw [sampleAll_cons]
    refine sampleAll_first (fun k' hk' => hks k' (by simp [hk'])) (h.sample hk) ?_
    rcases hfirst with hof | hmem
    · exact .inl (first_sample hof hk)
    · rcases List.mem_cons.1 hmem with rfl | hmem
      · exact .inl (first_sample_zero h)
      · exact .inr hmem

theorem sampleAll_base : ∀ {ks : List Nat} {tune : AutoTune}, (∀ k ∈ ks, k < 258) →
    (tune.pulse 0).seq.toNat = 0 → ((sampleAll d p tune ks).pulse 0).seq.toNat = 0
  | [], _, _, h => h
  | k :: ks, tune, hks, h => by
    rw [sampleAll_cons]
    refine sampleAll_base (fun k' hk' => hks k' (by simp [hk'])) ?_
    have hk := hks k (by simp)
    have hnat : (UInt32.ofNat k).toNat = k :=
      UInt32.toNat_ofNat_of_lt' (Nat.lt_trans hk (by decide))
    rcases tune.pulse_sample_cases (signal d p k) (UInt32.ofNat k) 0 with he | ⟨hi, he⟩
    · rw [he]
      exact h
    · rw [he]
      show (UInt32.ofNat k).toNat = 0
      omega

/-- **The tuner is sound.** Whatever packets of a sender with `d` data and `p` parity shards it
sees, in any order, repeated or with gaps, once the sender's first packet was among them: a period
that it finds is at most the number of shards of that kind. It is that number if a rising edge is in
the window, and always while only the first 258 packets were seen. -/
theorem autoTune_sound (h0 : 0 < d) (hp : 0 < p) {ks : List Nat} (hks : ∀ k ∈ ks, k + 1 < 2 ^ 32)
    (hzero : 0 ∈ ks) (bit : Bool) (hpos : 0 < (sampleAll d p AutoTune.new ks).findPeriod bit) :
    (sampleAll d p AutoTune.new ks).findPeriod bit ≤ shardsOf d p bit ∧
      ((∃ j, 1 ≤ j ∧ j < maxAutoTuneSamples ∧ Rises (sampleAll d p AutoTune.new ks) bit j) ∨
          (∀ k ∈ ks, k < 258) →
        (sampleAll d p AutoTune.new ks).findPeriod bit = shardsOf d p bit) := by
  have hslots := sampleAll_slots hks (slots_new d p)
  have hfirst := sampleAll_first hks (slots_new d p) (.inr hzero)
  have hadd := levelStart_add d p bit
  rcases OfSignal.findPeriod ⟨hfirst, fun i _ => hslots i⟩ h0 hp hpos with he | ⟨hge, he, hno⟩
  · exact ⟨Int.le_of_eq he, fun _ => he⟩
  · refine ⟨by omega, fun hcase => ?_⟩
    rcases hcase with ⟨j, h1, h2, hrise⟩ | hsmall
    · exact absurd hrise (hno j h1 h2)
    · -- the window starts at the sender's first packet, where a block starts
      rw [sampleAll_base hsmall (by rw [AutoTune.pulse_new]; rfl), Nat.zero_mod] at hge he
      omega

end

/-- Four packets of a sender with one data and one parity shard. -/
theorem autoTune_sound_four :
    0 < (sampleAll 1 1 AutoTune.new [0, 1, 2, 3]).findPeriod true ∧
      (sampleAll 1 1 AutoTune.new [0, 1, 2, 3]).findPeriod true = 1 := by
  have hpos : 0 < (sampleAll 1 1 AutoTune.new [0, 1, 2, 3]).findPeriod true := by decide +kernel
  exact ⟨hpos, (autoTune_sound (by decide) (by decide) (by decide) (by decide) true hpos).2
    (.inr (by decide))⟩

end Fecv2
