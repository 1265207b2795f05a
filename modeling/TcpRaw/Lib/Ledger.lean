import Mathlib.Data.List.Nodup

/-!
# Additions to a shared list

Owners append to a shared list what is missing in it, and each may take back what it appended.
`Kept base l owner loose`: the list `l` is `base` with additions behind it; each addition belongs to
one owner, or is `loose`, that is nobody takes it back. When no owner is left the list is `base`
with the loose additions (`Kept.settled`).
-/

namespace Ledger

universe u v

variable {α : Type u} {ι : Type v} {base l : List α} {owner owner' : ι → Option α}
  {loose loose' : α → Prop} {a : α} {i : ι}

/-- The list with its additions (module doc). -/
structure Kept (base l : List α) (owner : ι → Option α) (loose : α → Prop) : Prop where
  added : ∃ mine, l = base ++ mine ∧ mine.Nodup ∧
    ∀ a ∈ mine, a ∉ base ∧ (loose a ∨ ∃ i, owner i = some a)
  owned : ∀ i a, owner i = some a → a ∈ l ∧ a ∉ base
  unique : ∀ i j a, owner i = some a → owner j = some a → i = j

theorem Kept.refl (base : List α) (loose : α → Prop) :
    Kept base base (fun _ : ι => none) loose where
  added := ⟨[], by simp, List.nodup_nil, fun a ha => by cases ha⟩
  owned _ _ h := by cases h
  unique _ _ _ h := by cases h

theorem Kept.mono (h : Kept base l owner loose) (ho : ∀ i, owner' i = owner i)
    (hl : ∀ a, loose a → loose' a) : Kept base l owner' loose' := by
  obtain rfl : owner' = owner := funext ho
  obtain ⟨mine, he, hnd, hmine⟩ := h.added
  exact ⟨⟨mine, he, hnd, fun a ha => ⟨(hmine a ha).1, (hmine a ha).2.imp_left (hl a)⟩⟩, h.owned,
    h.unique⟩

theorem nodup_concat {mine : List α} (hnd : mine.Nodup) (ha : a ∉ base ++ mine) :
    (mine ++ [a]).Nodup :=
  hnd.append (List.nodup_singleton a) (by
    rw [List.disjoint_singleton]
    exact fun h => ha (List.mem_append_right _ h))

theorem Kept.add_loose (h : Kept base l owner loose) (ha : a ∉ l) (hl : loose a) :
    Kept base (l ++ [a]) owner loose := by
  obtain ⟨mine, rfl, hnd, hmine⟩ := h.added
  refine ⟨⟨mine ++ [a], by rw [List.append_assoc], nodup_concat hnd ha, fun b hb => ?_⟩,
    fun i b hb => ⟨List.mem_append_left _ (h.owned i b hb).1, (h.owned i b hb).2⟩, h.unique⟩
  rcases List.mem_append.1 hb with hb | hb
  · exact hmine b hb
  · rw [List.mem_singleton.1 hb]
    exact ⟨fun hbase => ha (List.mem_append_left _ hbase), .inl hl⟩

/-- A new owner appends what is missing. -/
theorem Kept.add_owned (h : Kept base l owner loose) (ha : a ∉ l) (hi : owner' i = some a)
    (hfree : owner i = none) (hrest : ∀ j, j ≠ i → owner' j = owner j) :
    Kept base (l ++ [a]) owner' loose := by
  obtain ⟨mine, rfl, hnd, hmine⟩ := h.added
  have hold : ∀ j b, owner j = some b → j ≠ i := fun j b hb hji => by
    rw [hji, hfree] at hb
    cases hb
  have hcases : ∀ j b, owner' j = some b → j = i ∧ b = a ∨ owner j = some b := fun j b hb => by
    by_cases hji : j = i
    · subst hji
      exact .inl ⟨rfl, Option.some.inj (hb.symm.trans hi)⟩
    · exact .inr ((hrest j hji).symm.trans hb)
  have hbase : a ∉ base := fun hbase => ha (List.mem_append_left _ hbase)
  refine ⟨⟨mine ++ [a], by rw [List.append_assoc], nodup_concat hnd ha, fun b hb => ?_⟩,
    fun j b hb => ?_, fun j k b hj hk => ?_⟩
  · rcases List.mem_append.1 hb with hb | hb
    · refine ⟨(hmine b hb).1, (hmine b hb).2.imp_right ?_⟩
      rintro ⟨j, hj⟩
      exact ⟨j, (hrest j (hold j b hj)).trans hj⟩
    · rw [List.mem_singleton.1 hb]
      exact ⟨hbase, .inr ⟨i, hi⟩⟩
  · rcases hcases j b hb with ⟨-, rfl⟩ | hb
    · exact ⟨by simp, hbase⟩
    · exact ⟨List.mem_append_left _ (h.owned j b hb).1, (h.owned j b hb).2⟩
  · -- an earlier owner's addition is in the list, the new one was not
    rcases hcases j b hj with ⟨rfl, rfl⟩ | hj <;> rcases hcases k b hk with ⟨rfl, hba⟩ | hk
    · rfl
    · exact absurd (h.owned k _ hk).1 ha
    · exact absurd (h.owned j _ hj).1 (hba ▸ ha)
    · exact h.unique j k b hj hk

/-- An owner takes back what it appended. -/
theorem Kept.remove [BEq α] [LawfulBEq α] (h : Kept base l owner loose) (hi : owner i = some a)
    (hgone : owner' i = none) (hrest : ∀ j, j ≠ i → owner' j = owner j) :
    Kept base (l.erase a) owner' loose := by
  obtain ⟨hmem, hbase⟩ := h.owned i a hi
  obtain ⟨mine, rfl, hnd, hmine⟩ := h.added
  rw [List.erase_append_right _ hbase]
  have hcases : ∀ j b, owner' j = some b → owner j = some b ∧ b ≠ a := fun j b hb => by
    have hji : j ≠ i := by
      rintro rfl
      rw [hgone] at hb
      cases hb
    have hb' := (hrest j hji).symm.trans hb
    exact ⟨hb', fun hba => hji (h.unique j i a (hba ▸ hb') hi)⟩
  refine ⟨⟨mine.erase a, rfl, hnd.erase a, fun b hb => ?_⟩, fun j b hb => ?_, fun j k b hj hk => ?_⟩
  · obtain ⟨hba, hb⟩ := (hnd.mem_erase_iff).1 hb
    refine ⟨(hmine b hb).1, (hmine b hb).2.imp_right ?_⟩
    rintro ⟨j, hj⟩
    refine ⟨j, (hrest j ?_).trans hj⟩
    rintro rfl
    exact hba (Option.some.inj (hj.symm.trans hi))
  · obtain ⟨hb, hba⟩ := hcases j b hb
    obtain ⟨hmem, hnot⟩ := h.owned j b hb
    refine ⟨?_, hnot⟩
    rcases List.mem_append.1 hmem with hmem | hmem
    · exact List.mem_append_left _ hmem
    · exact List.mem_append_right _ ((hnd.mem_erase_iff).2 ⟨hba, hmem⟩)
  · exact h.unique j k b (hcases j b hj).1 (hcases k b hk).1

/-- **With no owner left** the additions are loose. -/
theorem Kept.settled (h : Kept base l owner loose) (hnone : ∀ i, owner i = none) :
    ∃ mine, l = base ++ mine ∧ ∀ a ∈ mine, a ∉ base ∧ loose a := by
  obtain ⟨mine, rfl, -, hmine⟩ := h.added
  refine ⟨mine, rfl, fun a ha => ⟨(hmine a ha).1, (hmine a ha).2.resolve_right ?_⟩⟩
  rintro ⟨i, hi⟩
  rw [hnone i] at hi
  cases hi

end Ledger
