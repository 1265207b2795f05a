import Mathlib.Data.Finset.Card
import Mathlib.Data.Finset.Max

/-!
# Collecting numbered items block by block

Items are numbered, and `n` numbers make a block. A block set holds at most `limit` of them. It
drops an item that it holds. Once `d` items of a block are there it frees the block as a whole;
another item it keeps, and gives up the smallest number if there is no room.

A run returns for each item what it carries (`own`) and, when it completes its block, what is made
of the items of the block (`more`). Two of them that agree on all blocks from some number on return
the same for items of these blocks (`run_eq_of_later`): if one of them gives up such a number, it
holds no other, and so the two are equal. With room for all items they return the same if they agree
on all blocks but one that neither completes (`run_eq_of_room`).
-/

namespace BlockSet

variable {β : Type} {d n limit : Nat} {s t : Finset Nat} {k : Nat}

/-- The numbers of the block of `k` that are there with it. -/
def mates (n : Nat) (s : Finset Nat) (k : Nat) : Finset Nat := (insert k s).filter (· / n = k / n)

/-- Without the smallest number, if there are more than `limit`. -/
def evict (limit : Nat) (s : Finset Nat) : Finset Nat :=
  if limit < s.card then s.filter fun j => ∃ i ∈ s, i < j else s

/-- What is there before the limit is kept. -/
def settle (d n : Nat) (s : Finset Nat) (k : Nat) : Finset Nat :=
  if d ≤ (mates n s k).card then (insert k s).filter (· / n ≠ k / n) else insert k s

/-- The numbers after item `k`. -/
def receive (d n limit : Nat) (s : Finset Nat) (k : Nat) : Finset Nat :=
  if k ∈ s then s else evict limit (settle d n s k)

/-- What item `k` returns. -/
def returned (d n : Nat) (own : Nat → List β) (more : Nat → Finset Nat → List β) (s : Finset Nat)
    (k : Nat) : List β :=
  own k ++ if k ∉ s ∧ d ≤ (mates n s k).card then more (k / n) (mates n s k) else []

/-- What the items `ks` return, one after the other. -/
def run (d n limit : Nat) (own : Nat → List β) (more : Nat → Finset Nat → List β) :
    Finset Nat → List Nat → List β
  | _, [] => []
  | s, k :: ks => returned d n own more s k ++ run d n limit own more (receive d n limit s k) ks

/-! ## One item -/

theorem mem_mates {j : Nat} : j ∈ mates n s k ↔ (j = k ∨ j ∈ s) ∧ j / n = k / n := by
  rw [mates, Finset.mem_filter, Finset.mem_insert]

theorem self_mem_mates : k ∈ mates n s k := mem_mates.2 ⟨.inl rfl, rfl⟩

theorem mates_congr (h : ∀ j, j / n = k / n → (j ∈ s ↔ j ∈ t)) : mates n s k = mates n t k := by
  ext j
  rw [mem_mates, mem_mates]
  refine and_congr_left fun hj => ?_
  rw [h j hj]

theorem card_mates_le : (mates n s k).card ≤ (s.filter (· / n = k / n)).card + 1 := by
  rw [mates, Finset.filter_insert, if_pos rfl]
  exact Finset.card_insert_le _ _

theorem card_mates (hk : k ∉ s) : (mates n s k).card = (s.filter (· / n = k / n)).card + 1 := by
  rw [mates, Finset.filter_insert, if_pos rfl]
  exact Finset.card_insert_of_notMem fun h => hk (Finset.mem_filter.1 h).1

theorem mem_evict {j : Nat} :
    j ∈ evict limit s ↔ j ∈ s ∧ (limit < s.card → ∃ i ∈ s, i < j) := by
  unfold evict
  split
  · rename_i h
    rw [Finset.mem_filter]
    exact and_congr_right fun _ => ⟨fun hi _ => hi, fun hi => hi h⟩
  · rename_i h
    exact ⟨fun hj => ⟨hj, fun h' => absurd h' h⟩, fun hj => hj.1⟩

theorem evict_of_le (h : s.card ≤ limit) : evict limit s = s := if_neg (Nat.not_lt.2 h)

theorem card_evict_le (h : s.card ≤ limit + 1) : (evict limit s).card ≤ limit := by
  unfold evict
  split
  · rename_i hlt
    have hne : s.Nonempty := Finset.card_pos.1 (by omega)
    have hsub : s.filter (fun j => ∃ i ∈ s, i < j) ⊆ s.erase (s.min' hne) := by
      intro j hj
      obtain ⟨hj, i, hi, hij⟩ := Finset.mem_filter.1 hj
      refine Finset.mem_erase.2 ⟨?_, hj⟩
      rintro rfl
      exact Nat.not_lt.2 (Finset.min'_le s i hi) hij
    have hcard := Finset.card_le_card hsub
    rw [Finset.card_erase_of_mem (Finset.min'_mem s hne)] at hcard
    omega
  · omega

theorem settle_subset : settle d n s k ⊆ insert k s := by
  unfold settle
  split
  · exact Finset.filter_subset _ _
  · exact Finset.Subset.refl _

theorem card_settle_le : (settle d n s k).card ≤ s.card + 1 :=
  Nat.le_trans (Finset.card_le_card settle_subset) (Finset.card_insert_le _ _)

theorem card_receive_le (h : s.card ≤ limit) : (receive d n limit s k).card ≤ limit := by
  unfold receive
  split
  · exact h
  · exact card_evict_le (Nat.le_trans card_settle_le (by omega))

theorem receive_of_mem (h : k ∈ s) : receive d n limit s k = s := if_pos h

theorem card_mates_union {t : Finset Nat} {j : Nat}
    (ht : ∀ i ∈ t, i / n = k / n ∧ i ≠ k ∧ i ∉ s) (hjk : j / n = k / n) (hj : j ∉ insert k s ∪ t) :
    (mates n (insert k s ∪ t) j).card = (mates n s k).card + t.card + 1 := by
  have hfilter : (insert k s ∪ t).filter (· / n = k / n) = mates n s k ∪ t := by
    rw [Finset.filter_union, mates, Finset.filter_true_of_mem fun i hi => (ht i hi).1]
  have hdisj : Disjoint (mates n s k) t := by
    rw [Finset.disjoint_left]
    intro i hi hit
    rcases (mem_mates.1 hi).1 with rfl | hi
    · exact (ht i hit).2.1 rfl
    · exact (ht i hit).2.2 hi
  rw [card_mates hj, hjk, hfilter, Finset.card_union_of_disjoint hdisj]

theorem settle_of_few (h : (mates n s k).card < d) : settle d n s k = insert k s :=
  if_neg (Nat.not_le.2 h)

theorem returned_of_mem (own : Nat → List β) (more : Nat → Finset Nat → List β) (h : k ∈ s) :
    returned d n own more s k = own k := by
  rw [returned, if_neg fun h' => h'.1 h, List.append_nil]

theorem returned_of_few (own : Nat → List β) (more : Nat → Finset Nat → List β)
    (h : (mates n s k).card < d) : returned d n own more s k = own k := by
  rw [returned, if_neg fun h' => Nat.not_le.2 h h'.2, List.append_nil]

/-- An item that completes no block is kept, as long as there is room. -/
theorem receive_of_few (hfew : (mates n s k).card < d) (hroom : s.card < limit) :
    receive d n limit s k = insert k s := by
  by_cases hk : k ∈ s
  · rw [receive_of_mem hk, Finset.insert_eq_of_mem hk]
  · rw [receive, if_neg hk, settle_of_few hfew, evict_of_le]
    exact Nat.le_trans (Finset.card_insert_le _ _) hroom

/-! ## Two block sets -/

/-- The two hold the same numbers among those with `live`. -/
def Agree (live : Nat → Prop) (s t : Finset Nat) : Prop := ∀ j, live j → (j ∈ s ↔ j ∈ t)

theorem Agree.symm {live : Nat → Prop} (h : Agree live s t) : Agree live t s :=
  fun j hj => (h j hj).symm

section
variable {live : Nat → Prop}

theorem Agree.returned (h : Agree live s t) (hk : ∀ j, j / n = k / n → live j)
    (own : Nat → List β) (more : Nat → Finset Nat → List β) :
    returned d n own more s k = BlockSet.returned d n own more t k := by
  rw [BlockSet.returned, BlockSet.returned, mates_congr fun j hj => h j (hk j hj)]
  simp only [h k (hk k rfl)]

theorem Agree.settle (h : Agree live s t) (hk : ∀ j, j / n = k / n → live j) :
    Agree live (settle d n s k) (BlockSet.settle d n t k) := by
  intro j hj
  have hins : j ∈ insert k s ↔ j ∈ insert k t := by
    rw [Finset.mem_insert, Finset.mem_insert, h j hj]
  unfold BlockSet.settle
  rw [mates_congr fun j hj => h j (hk j hj)]
  split
  · rw [Finset.mem_filter, Finset.mem_filter, hins]
  · exact hins

end

/-- A number from `T` on that the one keeps, the other keeps. -/
theorem Agree.mem_evict {T : Nat} (h : Agree (T ≤ ·) s t) (hs : s.card ≤ limit + 1) {j : Nat}
    (hT : T ≤ j) (hj : j ∈ evict limit s) : j ∈ evict limit t := by
  obtain ⟨hjs, hsmaller⟩ := BlockSet.mem_evict.1 hj
  have hjt : j ∈ t := (h j hT).1 hjs
  refine BlockSet.mem_evict.2 ⟨hjt, fun hfull => ?_⟩
  by_contra hmin
  push Not at hmin
  -- `j` is the smallest number there, so all of them are in `s` too, and `s` has no others
  have hsub : t ⊆ s := fun i hi => (h i (Nat.le_trans hT (hmin i hi))).2 hi
  have heq : t = s := Finset.eq_of_subset_of_card_le hsub (by omega)
  obtain ⟨i, hi, hij⟩ := hsmaller (heq ▸ hfull)
  exact Nat.not_lt.2 (hmin i (heq ▸ hi)) hij

theorem Agree.evict {T : Nat} (h : Agree (T ≤ ·) s t) (hs : s.card ≤ limit + 1)
    (ht : t.card ≤ limit + 1) : Agree (T ≤ ·) (evict limit s) (evict limit t) :=
  fun _ hT => ⟨h.mem_evict hs hT, h.symm.mem_evict ht hT⟩

/-- The item of a block from `T` on leaves the two in agreement. -/
theorem Agree.receive {T : Nat} (h : Agree (T ≤ ·) s t) (hs : s.card ≤ limit) (ht : t.card ≤ limit)
    (hk : ∀ j, j / n = k / n → T ≤ j) :
    Agree (T ≤ ·) (receive d n limit s k) (BlockSet.receive d n limit t k) := by
  unfold BlockSet.receive
  by_cases hmem : k ∈ s
  · rw [if_pos hmem, if_pos ((h k (hk k rfl)).1 hmem)]
    exact h
  · rw [if_neg hmem, if_neg fun hmem' => hmem ((h k (hk k rfl)).2 hmem')]
    exact (h.settle hk).evict (Nat.le_trans card_settle_le (by omega))
      (Nat.le_trans card_settle_le (by omega))

/-! ## Runs -/

variable {own : Nat → List β} {more : Nat → Finset Nat → List β}

theorem run_append (ks ls : List Nat) (s : Finset Nat) :
    run d n limit own more s (ks ++ ls) = run d n limit own more s ks ++
      run d n limit own more (ks.foldl (receive d n limit) s) ls := by
  induction ks generalizing s with
  | nil => rfl
  | cons k ks ih => rw [List.cons_append, run, ih, run, List.append_assoc, List.foldl_cons]

/-- **Items of the blocks on which two block sets agree** return the same. -/
theorem run_eq_of_later {T : Nat} (ks : List Nat) (hks : ∀ k ∈ ks, ∀ j, j / n = k / n → T ≤ j)
    (h : Agree (T ≤ ·) s t) (hs : s.card ≤ limit) (ht : t.card ≤ limit) :
    run d n limit own more s ks = run d n limit own more t ks := by
  induction ks generalizing s t with
  | nil => rfl
  | cons k ks ih =>
    have hk := hks k List.mem_cons_self
    rw [run, run, h.returned hk own more]
    exact congrArg _ (ih (fun k' hk' => hks k' (List.mem_cons_of_mem _ hk'))
      (h.receive hs ht hk) (card_receive_le hs) (card_receive_le ht))

/-- What a block set needs to keep the next items `ks` without a block `B` being completed. -/
structure Roomy (d n limit B : Nat) (s : Finset Nat) (ks : List Nat) : Prop where
  room : s.card + ks.length ≤ limit
  few : (s.filter (· / n = B)).card + ks.countP (· / n = B) < d

theorem Roomy.receive {B : Nat} {ks : List Nat} (h : Roomy d n limit B s (k :: ks)) :
    Roomy d n limit B (receive d n limit s k) ks ∧ evict limit (settle d n s k) = settle d n s k ∧
      (k / n = B → (mates n s k).card < d) := by
  have hroom := h.room
  have hfew := h.few
  rw [List.length_cons] at hroom
  rw [List.countP_cons] at hfew
  have hkeep : evict limit (settle d n s k) = settle d n s k :=
    evict_of_le (Nat.le_trans card_settle_le (by omega))
  refine ⟨⟨?_, ?_⟩, hkeep, fun hB => ?_⟩
  · unfold BlockSet.receive
    split
    · omega
    · rw [hkeep]
      have := card_settle_le (d := d) (n := n) (s := s) (k := k)
      omega
  · have hsub : (BlockSet.receive d n limit s k).filter (· / n = B) ⊆
        (insert k s).filter (· / n = B) := by
      apply Finset.filter_subset_filter
      unfold BlockSet.receive
      split
      · exact Finset.subset_insert _ _
      · rw [hkeep]
        exact settle_subset
    have hcard := Finset.card_le_card hsub
    rw [Finset.filter_insert] at hcard
    by_cases hB : k / n = B
    · rw [if_pos hB] at hcard
      have := Finset.card_insert_le k (s.filter (· / n = B))
      simp only [hB, decide_true, if_true] at hfew
      omega
    · rw [if_neg hB] at hcard
      omega
  · have := card_mates_le (n := n) (s := s) (k := k)
    simp only [hB, decide_true, if_true] at hfew this
    omega

/-- **With room for all items** a block that is not completed does not matter. -/
theorem run_eq_of_room {B : Nat} (ks : List Nat) (h : Agree (· / n ≠ B) s t)
    (hs : Roomy d n limit B s ks) (ht : Roomy d n limit B t ks) :
    run d n limit own more s ks = run d n limit own more t ks := by
  induction ks generalizing s t with
  | nil => rfl
  | cons k ks ih =>
    obtain ⟨hs', hkeeps, hfews⟩ := hs.receive
    obtain ⟨ht', hkeept, hfewt⟩ := ht.receive
    rw [run, run]
    by_cases hB : k / n = B
    · -- both keep the item, in the block on which they may differ
      rw [returned_of_few own more (hfews hB), returned_of_few own more (hfewt hB)]
      refine congrArg _ (ih (fun j hj => ?_) hs' ht')
      have hmem : ∀ u : Finset Nat, evict limit (settle d n u k) = settle d n u k →
          (mates n u k).card < d → (j ∈ BlockSet.receive d n limit u k ↔ j ∈ u) := by
        intro u hkeep hfew
        have hjk : j ≠ k := by
          rintro rfl
          exact hj hB
        unfold BlockSet.receive
        split
        · exact Iff.rfl
        · rw [hkeep, settle_of_few hfew, Finset.mem_insert]
          exact or_iff_right hjk
      rw [hmem s hkeeps (hfews hB), hmem t hkeept (hfewt hB)]
      exact h j hj
    · have hk : ∀ j, j / n = k / n → j / n ≠ B := fun j hj hjB => hB (hj ▸ hjB)
      rw [h.returned hk own more]
      refine congrArg _ (ih ?_ hs' ht')
      unfold BlockSet.receive
      by_cases hmem : k ∈ s
      · rw [if_pos hmem, if_pos ((h k hB).1 hmem)]
        exact h
      · rw [if_neg hmem, if_neg fun hmem' => hmem ((h k hB).2 hmem'), hkeeps, hkeept]
        exact h.settle hk

/-- **Items of a block that is not completed** are kept. -/
theorem foldl_receive_of_few {B : Nat} (ks : List Nat) (hB : ∀ k ∈ ks, k / n = B)
    (h : Roomy d n limit B s ks) : ks.foldl (receive d n limit) s = s ∪ ks.toFinset := by
  induction ks generalizing s with
  | nil => simp
  | cons k ks ih =>
    obtain ⟨hnext, -, hfew⟩ := h.receive
    have hroom := h.room
    rw [List.length_cons] at hroom
    have hins : receive d n limit s k = insert k s :=
      receive_of_few (hfew (hB k List.mem_cons_self)) (by omega)
    rw [List.foldl_cons, ih (fun k' hk' => hB k' (List.mem_cons_of_mem _ hk')) hnext, hins,
      List.toFinset_cons, Finset.insert_union, Finset.union_insert]

/-- They return what they carry. -/
theorem run_of_few {B : Nat} (ks : List Nat) (hB : ∀ k ∈ ks, k / n = B)
    (h : Roomy d n limit B s ks) : run d n limit own more s ks = ks.flatMap own := by
  induction ks generalizing s with
  | nil => rfl
  | cons k ks ih =>
    obtain ⟨hnext, -, hfew⟩ := h.receive
    rw [run, returned_of_few own more (hfew (hB k List.mem_cons_self)),
      ih (fun k' hk' => hB k' (List.mem_cons_of_mem _ hk')) hnext, List.flatMap_cons]

end BlockSet
