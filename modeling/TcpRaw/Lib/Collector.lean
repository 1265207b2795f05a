import Mathlib.Data.Finset.Card
import Mathlib.Data.Finset.Dedup
import Mathlib.Data.List.Basic

/-!
# Collecting the items of blocks

Items are numbers, cut into blocks of `n`. A collector looks at the items that arrive, in any order
and perhaps repeatedly: it collects those of the latest block it has seen and ignores those of
earlier blocks. With `d` distinct items of a block the block is complete: the collector then gives
out which of its first `d` items it lacks (`wanted`), and starts to collect the block again.

`mem_run_iff` says when it gives out an item that never arrives: if and only if `d` distinct items
of its block arrive before the first item of a later block. `card_of_mem_run` holds for every item
given out: `d` distinct items of its block have arrived.
-/

namespace Collector

/-- The latest block, and the items collected of it since it was last complete. -/
structure State where
  block : Nat
  held : List Nat
  deriving DecidableEq, Repr

/-- The first `d` items of block `B`. -/
def wanted (d n B : Nat) : List Nat := (List.range d).map (B * n + ·)

/-- What is collected of block `B`. -/
def State.heldOf (c : State) (B : Nat) : List Nat := if c.block = B then c.held else []

/-- Item `k` arrives: the items given out, and the collector after it. -/
def State.arrive (d n : Nat) (c : State) (k : Nat) : List Nat × State :=
  if k / n < c.block then ([], c)
  else if k ∈ c.heldOf (k / n) then ([], c)
  else if (c.heldOf (k / n)).length + 1 < d then ([], ⟨k / n, c.heldOf (k / n) ++ [k]⟩)
  else ((wanted d n (k / n)).filter (· ∉ c.heldOf (k / n) ++ [k]), ⟨k / n, []⟩)

/-- What the items `ks` make a collector give out, one list for each, and the collector after
them. -/
def State.run (d n : Nat) : List Nat → State → List (List Nat) × State
  | [], c => ([], c)
  | k :: ks, c => ((c.arrive d n k).1 :: (State.run d n ks (c.arrive d n k).2).1,
      (State.run d n ks (c.arrive d n k).2).2)

/-- The items of block `B` that arrive before the first one of a later block. -/
def inTime (n B : Nat) (ks : List Nat) : List Nat :=
  (ks.takeWhile fun k => k / n ≤ B).filter fun k => k / n = B

section
variable {d n B k k₀ : Nat} {ks : List Nat} {c : State}

theorem mem_wanted : k ∈ wanted d n B ↔ ∃ j < d, B * n + j = k := by
  simp [wanted]

theorem div_of_mem_wanted (hd : d ≤ n) (h : k ∈ wanted d n B) : k / n = B := by
  obtain ⟨j, hj, rfl⟩ := mem_wanted.1 h
  rw [Nat.mul_comm, Nat.mul_add_div (by omega), Nat.div_eq_of_lt (by omega), Nat.add_zero]

/-- What is given out is wanted of the block of the item that arrived, which was the last one
needed. -/
theorem wanted_of_mem_arrive (h : k₀ ∈ (c.arrive d n k).1) :
    k₀ ∈ wanted d n (k / n) ∧ c.block ≤ k / n ∧ k ∉ c.heldOf (k / n) ∧
      d ≤ (c.heldOf (k / n)).length + 1 := by
  unfold State.arrive at h
  split at h
  · cases h
  · rename_i hge
    split at h
    · cases h
    · rename_i hk
      split at h
      · cases h
      · rename_i hfew
        exact ⟨List.mem_of_mem_filter h, Nat.le_of_not_lt hge, hk, Nat.le_of_not_lt hfew⟩

theorem block_le_arrive (d n : Nat) (c : State) (k : Nat) : c.block ≤ (c.arrive d n k).2.block := by
  unfold State.arrive
  split
  · exact Nat.le_refl _
  · rename_i hge
    split
    · exact Nat.le_refl _
    · split <;> exact Nat.le_of_not_lt hge

theorem div_le_block_arrive (d n : Nat) (c : State) (k : Nat) :
    k / n ≤ (c.arrive d n k).2.block := by
  unfold State.arrive
  split
  · rename_i h
    exact Nat.le_of_lt h
  · split
    · rename_i hmem
      unfold State.heldOf at hmem
      split at hmem
      · rename_i he
        exact Nat.le_of_eq he.symm
      · cases hmem
    · split <;> exact Nat.le_refl _

theorem block_le_run (d n : Nat) : ∀ (ks : List Nat) (c : State), c.block ≤ (c.run d n ks).2.block
  | [], _ => Nat.le_refl _
  | k :: ks, c => Nat.le_trans (block_le_arrive d n c k) (block_le_run d n ks _)

theorem div_le_block_run (d n : Nat) (h : k ∈ ks) : k / n ≤ (c.run d n ks).2.block := by
  induction ks generalizing c with
  | nil => cases h
  | cons k' ks ih =>
    rcases List.mem_cons.1 h with rfl | h
    · exact Nat.le_trans (div_le_block_arrive d n c k) (block_le_run d n ks _)
    · exact ih h

theorem not_mem_run (hd : d ≤ n) (hB : k₀ / n < c.block) : k₀ ∉ (c.run d n ks).1.flatten := by
  induction ks generalizing c with
  | nil => simp [State.run]
  | cons k ks ih =>
    simp only [State.run, List.flatten_cons, List.mem_append, not_or]
    refine ⟨fun h => ?_, ih (Nat.lt_of_lt_of_le hB (block_le_arrive d n c k))⟩
    obtain ⟨hw, hle, -⟩ := wanted_of_mem_arrive h
    rw [div_of_mem_wanted hd hw] at hB
    omega

/-- What is collected is without repeats and of the latest block. -/
def State.Sound (n : Nat) (c : State) : Prop := c.held.Nodup ∧ ∀ k ∈ c.held, k / n = c.block

theorem State.Sound.heldOf (h : c.Sound n) (B : Nat) :
    (c.heldOf B).Nodup ∧ ∀ k ∈ c.heldOf B, k / n = B := by
  unfold State.heldOf
  split
  · rename_i he
    exact ⟨h.1, fun k hk => (h.2 k hk).trans he⟩
  · simp

theorem State.Sound.concat (h : c.Sound n) (hk : k ∉ c.heldOf (k / n)) :
    State.Sound n ⟨k / n, c.heldOf (k / n) ++ [k]⟩ := by
  obtain ⟨hnd, hof⟩ := h.heldOf (k / n)
  refine ⟨by simpa using hnd.concat hk, fun k' hk' => ?_⟩
  · rcases List.mem_append.1 hk' with hk' | hk'
    · exact hof k' hk'
    · rw [List.mem_singleton.1 hk']

theorem heldOf_subset (c : State) (B : Nat) : c.heldOf B ⊆ c.held := by
  unfold State.heldOf
  split <;> simp

/-- What is collected afterwards was collected before, or is the item. -/
theorem arrive_sound (h : c.Sound n) :
    (c.arrive d n k).2.Sound n ∧ (c.arrive d n k).2.held ⊆ c.held ++ [k] := by
  unfold State.arrive
  split
  · exact ⟨h, by simp⟩
  · split
    · exact ⟨h, by simp⟩
    · rename_i hk
      split
      · refine ⟨h.concat hk, List.append_subset.2 ⟨fun k' hk' => ?_, by simp⟩⟩
        exact List.mem_append_left _ (heldOf_subset c _ hk')
      · exact ⟨⟨List.nodup_nil, by simp⟩, by simp⟩

/-- **Nothing comes from nothing**: an item that is given out is wanted of its block, and `d`
distinct items of that block have arrived. -/
theorem card_of_mem_run (hd : d ≤ n) (hc : c.Sound n) (h : k₀ ∈ (c.run d n ks).1.flatten) :
    k₀ ∈ wanted d n (k₀ / n) ∧ d ≤ ((c.held ++ ks).filter (· / n = k₀ / n)).toFinset.card := by
  induction ks generalizing c with
  | nil => simp [State.run] at h
  | cons k ks ih =>
    simp only [State.run, List.flatten_cons, List.mem_append] at h
    rcases h with h | h
    · obtain ⟨hw, -, hk, hlen⟩ := wanted_of_mem_arrive h
      obtain ⟨hnd, hof⟩ := hc.concat hk
      rw [div_of_mem_wanted hd hw]
      refine ⟨hw, ?_⟩
      calc d ≤ (c.heldOf (k / n) ++ [k]).length := by simpa using hlen
        _ = (c.heldOf (k / n) ++ [k]).toFinset.card := (List.toFinset_card_of_nodup hnd).symm
        _ ≤ _ := Finset.card_le_card fun x hx => by
          have hx := List.mem_toFinset.1 hx
          simp only [List.mem_toFinset, List.mem_filter, List.mem_append, decide_eq_true_eq]
          refine ⟨?_, hof x hx⟩
          rcases List.mem_append.1 hx with hx | hx
          · exact .inl (heldOf_subset c _ hx)
          · exact .inr (by simp [List.mem_singleton.1 hx])
    · obtain ⟨hw, hcard⟩ := ih (arrive_sound hc).1 h
      refine ⟨hw, Nat.le_trans hcard (Finset.card_le_card fun x hx => ?_)⟩
      have hsub := (arrive_sound (d := d) (k := k) hc).2
      simp only [List.mem_toFinset, List.mem_filter, List.mem_append] at hx ⊢
      refine ⟨?_, hx.2⟩
      rcases hx.1 with hx | hx
      · simpa [or_assoc] using Or.inl (b := x ∈ ks) (hsub hx)
      · exact .inr (by simp [hx])

/-! ## The items in time -/

theorem inTime_cons_later (h : B < k / n) : inTime n B (k :: ks) = [] := by
  simp [inTime, Nat.not_le.2 h]

theorem inTime_cons_earlier (h : k / n < B) : inTime n B (k :: ks) = inTime n B ks := by
  simp [inTime, Nat.le_of_lt h, Nat.ne_of_lt h]

theorem inTime_cons_eq (h : k / n = B) : inTime n B (k :: ks) = k :: inTime n B ks := by
  simp [inTime, h]

/-- What the collector has of a block, without repeats and not complete. -/
structure Collecting (d B k₀ : Nat) (c : State) : Prop where
  le : c.block ≤ B
  nodup : (c.heldOf B).Nodup
  few : (c.heldOf B).length < d
  lacks : k₀ ∉ c.heldOf B

/-- The items known of a block: collected, or still in time. -/
def State.known (n B : Nat) (c : State) (ks : List Nat) : Finset Nat :=
  (c.heldOf B ++ inTime n B ks).toFinset

theorem arrive_earlier (ks : List Nat) (hd : d ≤ n) (hB : k₀ / n = B) (hc : Collecting d B k₀ c)
    (hlt : k / n < B) :
    k₀ ∉ (c.arrive d n k).1 ∧ Collecting d B k₀ (c.arrive d n k).2 ∧
      (c.arrive d n k).2.known n B ks = c.known n B (k :: ks) := by
  have hle := hc.le
  have hheld : (c.arrive d n k).2.block ≤ B ∧ (c.arrive d n k).2.heldOf B = c.heldOf B := by
    unfold State.arrive
    split
    · exact ⟨hle, rfl⟩
    · rename_i hge
      have hcB : c.block ≠ B := by omega
      split
      · exact ⟨hle, rfl⟩
      · split <;> simp [State.heldOf, hcB, Nat.ne_of_lt hlt, Nat.le_of_lt hlt]
  refine ⟨fun h => ?_, ⟨hheld.1, ?_, ?_, ?_⟩, ?_⟩
  · have := div_of_mem_wanted hd (wanted_of_mem_arrive h).1
    omega
  · rw [hheld.2]
    exact hc.nodup
  · rw [hheld.2]
    exact hc.few
  · rw [hheld.2]
    exact hc.lacks
  · rw [State.known, State.known, hheld.2, inTime_cons_earlier hlt]

/-- An item of block `B`: it is collected, or it completes the block and the lost item is given
out. -/
theorem arrive_same (ks : List Nat) (hw : k₀ ∈ wanted d n B) (hc : Collecting d B k₀ c)
    (hne : k₀ ≠ k) (heq : k / n = B) :
    (k₀ ∉ (c.arrive d n k).1 ∧ Collecting d B k₀ (c.arrive d n k).2 ∧
        (c.arrive d n k).2.known n B ks = c.known n B (k :: ks)) ∨
      (k₀ ∈ (c.arrive d n k).1 ∧ d ≤ (c.known n B (k :: ks)).card) := by
  have hle := hc.le
  unfold State.arrive
  rw [if_neg (by omega), heq]
  by_cases hmem : k ∈ c.heldOf B
  · rw [if_pos hmem]
    refine .inl ⟨by simp, hc, ?_⟩
    rw [State.known, State.known, inTime_cons_eq heq]
    ext x
    simp only [List.mem_toFinset, List.mem_append, List.mem_cons]
    constructor
    · exact Or.imp_right .inr
    · rintro (h | rfl | h)
      · exact .inl h
      · exact .inl hmem
      · exact .inr h
  rw [if_neg hmem]
  have hnodup : (c.heldOf B ++ [k]).Nodup := by simpa using hc.nodup.concat hmem
  by_cases hfew : (c.heldOf B).length + 1 < d
  · rw [if_pos hfew]
    have hnew : State.heldOf ⟨B, c.heldOf B ++ [k]⟩ B = c.heldOf B ++ [k] := if_pos rfl
    refine .inl ⟨by simp, ⟨Nat.le_refl _, ?_, ?_, ?_⟩, ?_⟩
    · rw [hnew]
      exact hnodup
    · rw [hnew, List.length_append, List.length_singleton]
      exact hfew
    · rw [hnew, List.mem_append, List.mem_singleton, not_or]
      exact ⟨hc.lacks, hne⟩
    · rw [State.known, State.known, hnew, inTime_cons_eq heq, List.append_assoc]
      rfl
  · rw [if_neg hfew]
    refine .inr ⟨List.mem_filter.2 ⟨hw, by simp [hc.lacks, hne]⟩, ?_⟩
    have hsub : (c.heldOf B ++ [k]).toFinset ⊆ c.known n B (k :: ks) := by
      intro x hx
      rw [State.known, inTime_cons_eq heq]
      simp only [List.mem_toFinset, List.mem_append, List.mem_cons, List.not_mem_nil,
        or_false] at hx ⊢
      exact hx.imp_right .inl
    have hcard := Finset.card_le_card hsub
    rw [List.toFinset_card_of_nodup hnodup, List.length_append, List.length_singleton] at hcard
    omega

/-- **From any point on**, an item that never arrives is given out if and only if the items known of
its block are `d` or more. -/
theorem mem_run_iff_of (hd : d ≤ n) (hw : k₀ ∈ wanted d n B) (hks : k₀ ∉ ks)
    (hc : Collecting d B k₀ c) :
    k₀ ∈ (c.run d n ks).1.flatten ↔ d ≤ (c.known n B ks).card := by
  have hB := div_of_mem_wanted hd hw
  induction ks generalizing c with
  | nil =>
    have hfew := hc.few
    have hcard : (c.known n B []).card = (c.heldOf B).length := by
      rw [← List.toFinset_card_of_nodup hc.nodup]
      simp [State.known, inTime]
    rw [hcard]
    exact iff_of_false (by simp [State.run]) (by omega)
  | cons k ks ih =>
    have hks' : k₀ ∉ ks := fun h => hks (by simp [h])
    have hne : k₀ ≠ k := fun h => hks (by simp [h])
    simp only [State.run, List.flatten_cons, List.mem_append]
    rcases Nat.lt_trichotomy (k / n) B with hlt | heq | hgt
    · obtain ⟨hnot, hc', hknown⟩ := arrive_earlier ks hd hB hc hlt
      rw [← hknown, or_iff_right hnot]
      exact ih hks' hc'
    · rcases arrive_same ks hw hc hne heq with ⟨hnot, hc', hknown⟩ | ⟨hmem, hcard⟩
      · rw [← hknown, or_iff_right hnot]
        exact ih hks' hc'
      · exact iff_of_true (.inl hmem) hcard
    · -- an item of a later block: block `B` is given up
      have hfew := hc.few
      have hcard : (c.known n B (k :: ks)).card = (c.heldOf B).length := by
        rw [State.known, inTime_cons_later hgt, List.append_nil,
          List.toFinset_card_of_nodup hc.nodup]
      rw [hcard]
      refine iff_of_false ?_ (by omega)
      rw [not_or]
      refine ⟨fun h => ?_, not_mem_run hd ?_⟩
      · have := div_of_mem_wanted hd (wanted_of_mem_arrive h).1
        omega
      · rw [hB]
        exact Nat.lt_of_lt_of_le hgt (div_le_block_arrive d n c k)

/-- **When a lost item is given out**: `d` distinct items of its block arrive before the first one
of a later block. -/
theorem mem_run_iff (h0 : 0 < d) (hd : d ≤ n) (hw : k₀ ∈ wanted d n B) (hks : k₀ ∉ ks) :
    k₀ ∈ (State.run d n ks ⟨0, []⟩).1.flatten ↔ d ≤ (inTime n B ks).toFinset.card := by
  have hheld : State.heldOf ⟨0, []⟩ B = [] := by
    unfold State.heldOf
    split <;> rfl
  have hc : Collecting d B k₀ ⟨0, []⟩ :=
    ⟨Nat.zero_le _, by rw [hheld]; exact List.nodup_nil, by rw [hheld]; exact h0,
      by rw [hheld]; simp⟩
  have h := mem_run_iff_of hd hw hks hc
  rwa [State.known, hheld, List.nil_append] at h

end

end Collector
